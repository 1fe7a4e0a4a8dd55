import PineTools.Proofs.Layout.Stages
import PineTools.Proofs.Pattern.Occurrences

namespace PineTools.Layout

open Reader

theorem haltsAt_markerHead {c : Char} (hblank : Text.isBlank c = false)
    (hsign : c ∉ "//@version=".toList) :
    HaltsAt c (markerHead : Reader Char Unit) := by
  have hblanks : HaltsAt c (discard blanks : Reader Char Unit) := (haltsAt_run hblank).discard
  have hword (w : String) (hw : w.toList ⊆ "//@version=".toList) :
      HaltsAt c (discard (word w) : Reader Char Unit) :=
    (haltsAt_exactly fun k => hsign (hw k)).discard
  refine hblanks.bind fun _ => (hword "//" (by decide)).bind fun _ => hblanks.bind fun _ => ?_
  exact (hword "@version" (by decide)).bind fun _ => hblanks.bind fun _ => hword "=" (by decide)

def statesVersion (t : Text) : Bool := (Text.lines t).any fun l => (markerHead l).isSome

theorem discard_blanks_eq_some {l rest : Text} {u : Unit}
    (h : (discard blanks : Reader Char Unit) l = some (u, rest)) :
    ∃ b, l = b ++ rest ∧ ∀ c ∈ b, Text.isBlank c = true := by
  obtain ⟨b, rest', hb, e⟩ := discard_eq_some.mp h
  cases e
  exact ⟨b, takes_run Text.isBlank hb⟩

theorem discard_word_eq_some {w : String} {l rest : Text} {u : Unit}
    (h : (discard (word w) : Reader Char Unit) l = some (u, rest)) : l = w.toList ++ rest := by
  obtain ⟨v, rest', hv, e⟩ := discard_eq_some.mp h
  cases e
  obtain ⟨rfl, hw⟩ := exactly_eq_some.mp hv
  rw [← hw, seenText]
  exact congrArg (· ++ rest) (List.map_id v).symm

theorem markerHead_eq_some {l rest : Text} {u : Unit} (h : markerHead l = some (u, rest)) :
    ∃ b₁ b₂ b₃ : Text, (∀ c ∈ b₁ ++ b₂ ++ b₃, Text.isBlank c = true) ∧
      l = b₁ ++ ("//".toList ++ (b₂ ++ ("@version".toList ++ (b₃ ++ ("=".toList ++ rest))))) := by
  obtain ⟨_, l₁, h₁, h⟩ := bind_eq_some.mp h
  obtain ⟨_, l₂, h₂, h⟩ := bind_eq_some.mp h
  obtain ⟨_, l₃, h₃, h⟩ := bind_eq_some.mp h
  obtain ⟨_, l₄, h₄, h⟩ := bind_eq_some.mp h
  obtain ⟨_, l₅, h₅, h₆⟩ := bind_eq_some.mp h
  obtain ⟨b₁, rfl, hb₁⟩ := discard_blanks_eq_some h₁
  obtain rfl := discard_word_eq_some h₂
  obtain ⟨b₂, rfl, hb₂⟩ := discard_blanks_eq_some h₃
  obtain rfl := discard_word_eq_some h₄
  obtain ⟨b₃, rfl, hb₃⟩ := discard_blanks_eq_some h₅
  obtain rfl := discard_word_eq_some h₆
  exact ⟨b₁, b₂, b₃, List.forall_mem_append.mpr ⟨List.forall_mem_append.mpr ⟨hb₁, hb₂⟩, hb₃⟩, rfl⟩

/-- What a marker with a line to itself looks like. -/
theorem loneMarker?_eq_some {l digits : Text} (h : loneMarker? l = some digits) :
    (markerHead l).isSome = true ∧ (∀ c ∈ digits, Text.isDecimal c = true) ∧
      ∃ b₁ b₂ b₃ b₄ b₅ : Text, (∀ c ∈ b₁ ++ b₂ ++ b₃ ++ b₄ ++ b₅, Text.isBlank c = true) ∧
        l = b₁ ++ ("//".toList ++
          (b₂ ++ ("@version".toList ++ (b₃ ++ ("=".toList ++ (b₄ ++ (digits ++ b₅))))))) := by
  obtain ⟨⟨digits', rest⟩, hread, rfl⟩ := Option.map_eq_some_iff.mp h
  obtain ⟨_, l₁, h₁, h⟩ := bind_eq_some.mp hread
  obtain ⟨_, l₂, h₂, h⟩ := bind_eq_some.mp h
  obtain ⟨digits, l₃, h₃, h⟩ := bind_eq_some.mp h
  obtain ⟨_, l₄, h₄, h⟩ := bind_eq_some.mp h
  obtain ⟨_, l₅, h₅, h⟩ := bind_eq_some.mp h
  cases pure_eq_some.mp h
  obtain ⟨b₁, b₂, b₃, hb, rfl⟩ := markerHead_eq_some h₁
  obtain ⟨b₄, rfl, hb₄⟩ := discard_blanks_eq_some h₂
  obtain ⟨rfl, hdigits⟩ := takes_run1 Text.isDecimal h₃
  obtain ⟨b₅, rfl, hb₅⟩ := discard_blanks_eq_some h₄
  have hdone : l₄ = [] := by
    rw [done] at h₅
    split at h₅
    · exact List.isEmpty_iff.mp ‹_›
    · cases h₅
  subst hdone
  refine ⟨by rw [h₁]; rfl, hdigits, b₁, b₂, b₃, b₄, b₅, ?_, by rw [List.append_nil]⟩
  exact List.forall_mem_append.mpr ⟨List.forall_mem_append.mpr ⟨hb, hb₄⟩, hb₅⟩

theorem solidCells_map {f : Char → Cell} (hf : ∀ c, (f c).char = c) (t : Text) :
    solidCells (t.map f) = (Text.solid t).map f := by
  rw [solidCells, List.filter_map, Text.solid]
  congr 2
  funext c
  rw [Function.comp_apply, hf]

theorem cells_comment_line {x : Text} (hx : Text.OneLine x) :
    cellsFrom (.code false) ('/' :: '/' :: x) = ('/' :: '/' :: x).map (⟨·, .lineComment, false⟩) ∧
      (Mode.code false).after none ('/' :: '/' :: x) = .line := by
  have hline : cellsFrom .line x = x.map (⟨·, .lineComment, false⟩) ∧
      Mode.line.after none x = .line := by
    induction x with
    | nil => exact ⟨rfl, rfl⟩
    | cons c cs ih =>
      have hc : c ≠ '\n' := hx.head
      obtain ⟨hcells, hafter⟩ := ih hx.tail
      have hstep (ahead : Option Char) : Mode.line.step c ahead =
          (⟨c, .lineComment, false⟩, .line) := if_neg hc
      rw [cellsFrom, Mode.after, hstep, hstep, hcells, hafter]
      exact ⟨rfl, rfl⟩
  rw [List.map_cons, List.map_cons, ← hline.1]
  exact ⟨rfl, hline.2⟩

theorem substance_comment_line {x : Text} (hx : Text.OneLine x) :
    substance (.code false) ['/' :: '/' :: x] =
      ⟨(Text.solid ('/' :: '/' :: x)).map (⟨·, .lineComment, false⟩), [], 0, false⟩ := by
  rw [substance_singleton, (cells_comment_line hx).1, (cells_comment_line hx).2,
    solidCells_map fun _ => rfl]
  refine congrArg (fun ls => Substance.mk _ ls _ _) ?_
  have := @literalsFrom_plain (('/' :: '/' :: x).map (⟨·, .lineComment, false⟩)) (fun g hg => by
    obtain ⟨c, -, rfl⟩ := List.mem_map.mp hg
    rfl) (by simp) [] []
  rwa [List.append_nil] at this

theorem masked_comment_line {b x : Text} (hb : ∀ c ∈ b, Text.isSpace c = true)
    (hx : Text.OneLine x) :
    ∀ c ∈ (cellsFrom (.code false) (b ++ '/' :: '/' :: x)).map Cell.masked,
      Text.isSpace c = true := by
  induction b with
  | nil =>
    rw [List.nil_append, (cells_comment_line hx).1, List.map_map]
    intro c hc
    obtain ⟨d, -, rfl⟩ := List.mem_map.mp hc
    rw [Function.comp_apply, Cell.masked]
    split
    case isTrue e => exact e ▸ Text.isSpace_newline
    case isFalse => rfl
  | cons c b ih =>
    obtain ⟨hc, hb⟩ := List.forall_mem_cons.mp hb
    rw [List.cons_append, cellsFrom_code_white false hc, List.map_cons, Cell.masked_of_code rfl]
    exact List.forall_mem_cons.mpr ⟨hc, ih hb⟩

theorem cells_block_line {x : Text} (hx : '*' ∉ x) :
    cellsFrom .block x = x.map (⟨·, .blockComment, false⟩) := by
  induction x with
  | nil => rfl
  | cons c cs ih =>
    rw [cellsFrom, step_block (List.ne_of_not_mem_cons hx).symm,
      ih (List.not_mem_of_not_mem_cons hx), List.map_cons]

theorem substance_block_line {x : Text} (hx : '*' ∉ x) :
    substance .block [x] = ⟨(Text.solid x).map (⟨·, .blockComment, false⟩), [], 0, true⟩ := by
  rw [substance_singleton, cells_block_line hx, after_block_comment none hx,
    solidCells_map fun _ => rfl]
  refine congrArg (fun ls => Substance.mk _ ls _ _) ?_
  by_cases hnil : x = []
  · subst hnil
    rfl
  have := @literalsFrom_plain (x.map (⟨·, .blockComment, false⟩)) (fun g hg => by
    obtain ⟨c, -, rfl⟩ := List.mem_map.mp hg
    rfl) (by simpa using hnil) [] []
  rwa [List.append_nil] at this

/-- Neither a marker with a line to itself nor its canonical form ends a block comment. -/
theorem loneMarker?_no_star {l digits : Text} (h : loneMarker? l = some digits) :
    '*' ∉ l ∧ '*' ∉ "//@version=".toList ++ digits := by
  obtain ⟨-, hdigits, b₁, b₂, b₃, b₄, b₅, hb, rfl⟩ := loneMarker?_eq_some h
  simp only [List.forall_mem_append] at hb
  have nostar {b : Text} (hb : ∀ c ∈ b, Text.isBlank c = true) : '*' ∉ b :=
    fun k => absurd (hb _ k) (by decide)
  have hdig : '*' ∉ digits := fun k => absurd (hdigits _ k) (by decide)
  constructor
  · simp only [List.mem_append, nostar hb.1.1.1.1, nostar hb.1.1.1.2, nostar hb.1.1.2,
      nostar hb.1.2, nostar hb.2, hdig, or_false, false_or]
    decide
  · simp only [List.mem_append, hdig, or_false]
    decide

theorem standsFor_marker (strict : Prop) (inComment : Bool) {l digits : Text}
    (h : loneMarker? l = some digits) (hl : Text.OneLine l) :
    StandsFor strict (.ofLine inComment) ("//@version=".toList ++ digits) l := by
  obtain ⟨-, hdigits, b₁, b₂, b₃, b₄, b₅, hb, e⟩ := loneMarker?_eq_some h
  have hspace : ∀ c ∈ b₁ ++ b₂ ++ b₃ ++ b₄ ++ b₅, Text.isSpace c = true := Text.white_of_blanks hb
  simp only [List.forall_mem_append] at hspace hb
  have hsolid : Text.solid ("//@version=".toList ++ digits) = Text.solid l := by
    rw [e]
    simp only [Text.solid_append, Text.solid_eq_nil hspace.1.1.1.1,
      Text.solid_eq_nil hspace.1.1.1.2, Text.solid_eq_nil hspace.1.1.2,
      Text.solid_eq_nil hspace.1.2, Text.solid_eq_nil hspace.2, List.nil_append, List.append_nil]
    rfl
  have hone : Text.OneLine ("//@version=".toList ++ digits) := by
    intro k
    rcases List.mem_append.mp k with k | k
    · exact absurd k (by decide)
    · exact absurd (hdigits _ k) (by decide)
  have hchars : ∀ c ∈ "//@version=".toList ++ digits, c ∈ l ∨ Text.isBlank c = true := by
    intro c hc
    rw [e]
    rcases List.mem_append.mp hc with hc | hc
    · rw [show "//@version=".toList = "//".toList ++ "@version".toList ++ "=".toList from rfl] at hc
      simp only [List.mem_append] at hc ⊢
      rcases hc with (hc | hc) | hc <;> simp only [hc, true_or, or_true]
    · simp only [List.mem_append, hc, true_or, or_true]
  refine ⟨hone, hchars, hsolid, fun _ => ?_⟩
  cases inComment with
  | false =>
    have hnew := @substance_comment_line ("@version=".toList ++ digits) fun k =>
      hone (List.mem_append_right "//".toList k)
    have hold := @substance_comment_line (l.drop (b₁.length + 2)) fun k =>
      hl (List.mem_of_mem_drop k)
    have hrest : l = b₁ ++ '/' :: '/' :: l.drop (b₁.length + 2) := by
      have hdrop : l.drop (b₁.length + 2) = (l.drop b₁.length).drop 2 := by rw [List.drop_drop]
      rw [hdrop, e, List.drop_left]
      rfl
    have hsolid' : Text.solid ('/' :: '/' :: l.drop (b₁.length + 2)) =
        Text.solid ('/' :: '/' :: ("@version=".toList ++ digits)) := by
      refine Eq.trans ?_ hsolid.symm
      rw [hrest, Text.solid_append, Text.solid_eq_nil hspace.1.1.1.1, ← hrest]
      rfl
    change substance (.code false) ['/' :: '/' :: ("@version=".toList ++ digits)] =
      substance (.code false) [l]
    rw [hnew, hrest, substance_leading_white hspace.1.1.1.1, hold, hsolid']
  | true =>
    change substance .block [_] = substance .block [_]
    rw [substance_block_line (loneMarker?_no_star h).2,
      substance_block_line (loneMarker?_no_star h).1, hsolid]

theorem replaceFirst_eq_some {f : Text → Option Text} {ls lines : List Text} {old new : Text}
    (h : replaceFirst f ls = some (old, new, lines)) :
    ∃ before after, ls = before ++ old :: after ∧ lines = before ++ new :: after ∧
    f old = some new ∧
      ∀ l ∈ before, f l = none := by
  induction ls generalizing lines with
  | nil => cases h
  | cons l ls ih =>
    rw [replaceFirst] at h
    split at h
    case h_1 new' hf =>
      cases h
      exact ⟨[], ls, rfl, rfl, hf, List.forall_mem_nil _⟩
    case h_2 hf =>
      obtain ⟨⟨old', new', lines'⟩, hrest, e⟩ := Option.map_eq_some_iff.mp h
      cases e
      obtain ⟨before, after, rfl, rfl, hnew, hnone⟩ := ih hrest
      exact ⟨l :: before, after, rfl, rfl, hnew, List.forall_mem_cons.mpr ⟨hf, hnone⟩⟩

theorem replaceFirst_eq_none {f : Text → Option Text} {ls : List Text} :
    replaceFirst f ls = none ↔ ∀ l ∈ ls, f l = none := by
  induction ls with
  | nil => exact ⟨fun _ l hl => absurd hl List.not_mem_nil, fun _ => rfl⟩
  | cons l ls ih =>
    rw [replaceFirst, List.forall_mem_cons]
    cases hf : f l with
    | some new => simp
    | none => simp only [Option.map_eq_none_iff, ih, true_and]

def canonicalMarker? (line : Text) : Option Text := (loneMarker? line).map fun digits =>
    "//@version=".toList ++ digits

def markedLines (fallback : ScriptVersion) (ls : List Text) : List Text :=
  match replaceFirst canonicalMarker? ls with
  | some (_, _, lines) => lines
  | none => if ls.any fun l => (markerHead l).isSome then ls else fallback.marker :: ls

theorem markedLines_cases (fallback : ScriptVersion) (ls : List Text) :
    (∃ before after old new, ls = before ++ old :: after ∧ canonicalMarker? old = some new ∧
        (∀ l ∈ before, canonicalMarker? l = none) ∧ markedLines fallback ls = before ++
          new :: after) ∨
      (∀ l ∈ ls, canonicalMarker? l = none) ∧
        markedLines fallback ls = if ls.any fun l => (markerHead l).isSome then ls
          else fallback.marker :: ls := by
  rw [markedLines]
  cases hfind : replaceFirst canonicalMarker? ls with
  | none => exact .inr ⟨replaceFirst_eq_none.mp hfind, rfl⟩
  | some found =>
    obtain ⟨old, new, lines⟩ := found
    obtain ⟨before, after, hlines, rfl, hnew, hnone⟩ := replaceFirst_eq_some hfind
    exact .inl ⟨before, after, old, new, hlines, hnew, hnone, rfl⟩

theorem syncVersionComment_lines (fallback : ScriptVersion) (t : Text) :
    (syncVersionComment fallback t).text = Text.unlines (markedLines fallback (Text.lines t)) := by
  have hunfold : syncVersionComment fallback t =
      match replaceFirst canonicalMarker? (Text.lines t) with
      | some (old, new, lines) =>
        if old = new then ⟨t, none⟩
        else ⟨Text.unlines lines,
          some ("Canonicalized version annotation to " ++ String.ofList new)⟩
      | none =>
        if (Pattern.atLineStart markerHead : Pattern Char Unit).occursIn t then ⟨t, none⟩
        else ⟨fallback.marker ++ '\n' :: t,
          some ("Inserted version annotation " ++ String.ofList fallback.marker)⟩ := rfl
  rw [hunfold, markedLines]
  cases hfind : replaceFirst canonicalMarker? (Text.lines t) with
  | none =>
    rw [Pattern.occursIn_atLineStart (haltsAt_markerHead (by decide) (by decide))]
    dsimp only
    split
    · exact (Text.unlines_lines t).symm
    · rw [Text.unlines_cons (Text.lines_ne_nil t), Text.unlines_lines]
  | some found =>
    obtain ⟨old, new, lines⟩ := found
    obtain ⟨before, after, hlines, rfl, -⟩ := replaceFirst_eq_some hfind
    dsimp only
    split
    case isTrue e => rw [← e, ← hlines, Text.unlines_lines]
    case isFalse => rfl

end PineTools.Layout
