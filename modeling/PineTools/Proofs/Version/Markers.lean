import Mathlib.Data.List.TakeWhile
import PineTools.Proofs.Construct.LineByLine
import PineTools.Proofs.Construct.Statements
import PineTools.Proofs.Layout.Markers
import PineTools.Proofs.Scan.Places
import PineTools.Proofs.Scan.Rewriting
import PineTools.Convert.Basic

/-! Version markers among the lines of a script. The first line that states a version counts;
writing a marker puts the canonical one in its place. No marker comes into being where a line of
code is rewritten, since a marker is a comment from its first slash on. -/
namespace PineTools

open Reader Mode

def isMarkerLine (l : Text) : Bool := (marker.readAt? l).isSome

/-- What stands in front of the number of a marker. -/
def MarkerHead (h : Text) : Prop :=
  ∃ b₁ b₂ b₃ b₄ : Text, (∀ c ∈ b₁ ++ b₂ ++ b₃ ++ b₄, Text.isBlank c = true) ∧
  h = b₁ ++ ("//".toList ++ (b₂ ++ ("@version".toList ++ (b₃ ++ ("=".toList ++ b₄)))))

theorem marker_none_eq : marker none = (do
    markerHead
    discard blanks
    run1 Text.isDecimal) := rfl

theorem lineWise_marker : marker.LineWise := by
  have hblanks : HaltsAt '\n' (discard blanks : Reader Char Unit) :=
    (haltsAt_run (by decide)).discard
  refine Pattern.lineWise_atLineStart (Pattern.advances_atLineStart ?_) ?_
  · intro gs v rest h
    obtain ⟨_, rest₁, h₁, h⟩ := bind_eq_some.mp h
    obtain ⟨_, rest₂, h₂, h₃⟩ := bind_eq_some.mp h
    obtain ⟨b₁, b₂, b₃, -, rfl⟩ := Layout.markerHead_eq_some h₁
    obtain ⟨b₄, rfl, -⟩ := Layout.discard_blanks_eq_some h₂
    obtain ⟨taken, hne, rfl⟩ := eats_run1 _ h₃
    exact ⟨b₁ ++
      ("//".toList ++ (b₂ ++ ("@version".toList ++ (b₃ ++ ("=".toList ++ (b₄ ++ taken)))))), by
      simp, by simp⟩
  · exact (Layout.haltsAt_markerHead (by decide) (by decide)).bind fun _ => hblanks.bind fun _ =>
      haltsAt_run1 (by decide)

theorem isBlank_of_isDecimal {c : Char} (h : Text.isDecimal c = true) : Text.isBlank c = false :=
  Text.isBlank_eq_false Text.isDecimal (by decide) (by decide) h

theorem readAt?_marker_iff {l digits : Text} :
    marker.readAt? l = some digits ↔ ∃ h rest, MarkerHead h ∧ digits ≠ [] ∧
    (∀ c ∈ digits, Text.isDecimal c = true) ∧
    (∀ c, rest.head? = some c → Text.isDecimal c = false) ∧
    l = h ++ (digits ++ rest) := by
  rw [Pattern.readAt?, Option.map_eq_some_iff, marker_none_eq]
  constructor
  · rintro ⟨⟨_, rest⟩, h, rfl⟩
    obtain ⟨_, rest₁, h₁, h⟩ := bind_eq_some.mp h
    obtain ⟨_, rest₂, h₂, h₃⟩ := bind_eq_some.mp h
    obtain ⟨b₁, b₂, b₃, hb, rfl⟩ := Layout.markerHead_eq_some h₁
    obtain ⟨b₄, rfl, hb₄⟩ := Layout.discard_blanks_eq_some h₂
    obtain ⟨rfl, hdigits⟩ := takes_run1 _ h₃
    obtain ⟨hne, hrun⟩ := run1_eq_some.mp h₃
    refine ⟨_, rest, ⟨b₁, b₂, b₃, b₄, List.forall_mem_append.mpr ⟨hb, hb₄⟩, rfl⟩, hne, hdigits,
      fun c hc => ?_, ?_⟩
    · obtain ⟨rest', e⟩ := List.head?_eq_some_iff.mp hc
      exact head_not_of_run hrun e
    · simp only [List.append_assoc]
  · rintro ⟨h, rest, ⟨b₁, b₂, b₃, b₄, hb, rfl⟩, hne, hdigits, hrest, rfl⟩
    simp only [List.forall_mem_append] at hb
    obtain ⟨⟨⟨hb₁, hb₂⟩, hb₃⟩, hb₄⟩ := hb
    have hword (w : String) (rest : Text) :
        (discard (word w) : Reader Char Unit) (w.toList ++ rest) = some ((), rest) :=
      discard_eq_some.mpr ⟨w.toList, rest, exactly_eq_some.mpr ⟨rfl, List.map_id _⟩, rfl⟩
    have hblanks {b : Text} (hb : ∀ c ∈ b, Text.isBlank c = true) {rest : Text}
        (hrest : ∀ c, rest.head? = some c → Text.isBlank c = false) :
        (discard blanks : Reader Char Unit) (b ++ rest) = some ((), rest) :=
      discard_eq_some.mpr ⟨b, rest, run_append hb hrest, rfl⟩
    have hfirst {c : Char} (hc : Text.isBlank c = false) (t rest : Text) :
        ∀ d, (c :: t ++ rest).head? = some d → Text.isBlank d = false := by
      intro d hd
      cases hd
      exact hc
    have hhead :
      markerHead (b₁ ++
      ("//".toList ++
      (b₂ ++ ("@version".toList ++ (b₃ ++ ("=".toList ++ (b₄ ++ (digits ++ rest)))))))) =
        some ((), b₄ ++ (digits ++ rest)) := by
      refine bind_eq_some.mpr ⟨(), _, hblanks hb₁ (hfirst (by decide) _ _), ?_⟩
      refine bind_eq_some.mpr ⟨(), _, hword "//" _, ?_⟩
      refine bind_eq_some.mpr ⟨(), _, hblanks hb₂ (hfirst (by decide) _ _), ?_⟩
      refine bind_eq_some.mpr ⟨(), _, hword "@version" _, ?_⟩
      exact bind_eq_some.mpr ⟨(), _, hblanks hb₃ (hfirst (by decide) _ _), hword "=" _⟩
    refine ⟨(digits, rest),
      bind_eq_some.mpr
      ⟨(), b₄ ++ (digits ++ rest), ?_, bind_eq_some.mpr ⟨(), digits ++ rest, ?_, ?_⟩⟩, rfl⟩
    · rw [← hhead]
      simp only [List.append_assoc]
    · obtain ⟨x, digits, rfl⟩ := List.exists_cons_of_ne_nil hne
      exact hblanks hb₄ (hfirst (isBlank_of_isDecimal (hdigits x List.mem_cons_self)) _ _)
    · exact run1_eq_some.mpr ⟨hne, run_append hdigits hrest⟩

theorem isMarkerLine_iff (l : Text) :
    isMarkerLine l = true ↔ ∃ h x rest, MarkerHead h ∧ Text.isDecimal x = true ∧
    l = h ++ x :: rest := by
  rw [isMarkerLine, Option.isSome_iff_exists]
  constructor
  · rintro ⟨digits, hread⟩
    obtain ⟨h, rest, hh, hne, hdigits, -, rfl⟩ := readAt?_marker_iff.mp hread
    obtain ⟨x, digits, rfl⟩ := List.exists_cons_of_ne_nil hne
    exact ⟨h, x, digits ++ rest, hh, hdigits x List.mem_cons_self, by rw [List.cons_append]⟩
  · rintro ⟨h, x, rest, hh, hx, rfl⟩
    refine ⟨_, readAt?_marker_iff.mpr ⟨h, _, hh, ?_, List.all_eq_true.mp List.all_takeWhile,
      fun c hc => ?_, congrArg (h ++ ·) List.takeWhile_append_dropWhile.symm⟩⟩
    · rw [List.takeWhile_cons_of_pos hx]
      exact List.cons_ne_nil _ _
    · have := List.head?_dropWhile_not Text.isDecimal (x :: rest)
      rw [hc] at this
      simpa using this

theorem after_line_comment {m : Mode} (hm : m = .line ∨ m = .lineSecond)
    (ahead : Option Char) {u : Text} (hu : Text.OneLine u) : m.after ahead u = .line ∨
    m.after ahead u = .lineSecond := by
  induction u generalizing m with
  | nil => exact hm
  | cons c u ih =>
    have hc : c ≠ '\n' := hu.head
    refine ih (.inl ?_) hu.tail
    rcases hm with rfl | rfl
    · rw [step, if_neg hc]
    · rfl

theorem after_code_blanks (b : Bool) (ahead : Option Char) {w : Text}
    (hw : ∀ c ∈ w, Text.isBlank c = true) :
    ∃ b', (Mode.code b).after ahead w = .code b' := by
  induction w generalizing b with
  | nil => exact ⟨b, rfl⟩
  | cons c w ih =>
    obtain ⟨hc, hw⟩ := List.forall_mem_cons.mp hw
    rw [after_code_white b (Text.isSpace_of_isBlank hc)]
    exact ih false hw

theorem inCode_after_slashes (inComment : Bool) (ahead : Option Char) {b u : Text}
    (hb : ∀ c ∈ b, Text.isBlank c = true) (hnl : Text.OneLine u) (hstar : '*' ∉ u) :
    ((Mode.ofLine inComment).after ahead (b ++ ("//".toList ++ u))).inCode = false := by
  cases inComment with
  | true =>
    have hall : '*' ∉ b ++ ("//".toList ++ u) := by
      simp only [List.mem_append, not_or]
      exact ⟨fun k => absurd (hb _ k) (by decide), by decide, hstar⟩
    rw [ofLine, if_pos rfl, after_block_comment ahead hall]
    rfl
  | false =>
    rw [ofLine, if_neg Bool.false_ne_true, after_append]
    obtain ⟨b', e⟩ := after_code_blanks false (("//".toList ++ u).head?.or ahead) hb
    have hslashes : (Mode.code b').after ahead ("//".toList ++ u) = Mode.line.after ahead u := by
      cases b' <;> rfl
    rw [e, hslashes]
    rcases after_line_comment (.inl rfl) ahead hnl with e | e <;> rw [e] <;> rfl

theorem MarkerHead.slashes {h : Text} (hh : MarkerHead h) :
    ∃ b q, (∀ c ∈ b, Text.isBlank c = true) ∧ Text.OneLine q ∧ '*' ∉ q ∧
    h = b ++ ("//".toList ++ q) := by
  obtain ⟨b₁, b₂, b₃, b₄, hb, rfl⟩ := hh
  simp only [List.forall_mem_append] at hb
  have hnot {c : Char} (hc : Text.isBlank c = false) {b : Text}
      (hb : ∀ c ∈ b, Text.isBlank c = true) : c ∉ b := fun k => by
    rw [hb c k] at hc
    cases hc
  have habsent {c : Char} (hc : Text.isBlank c = false)
    (hsign : c ∉ "@version".toList ++ "=".toList) :
      c ∉ b₂ ++ ("@version".toList ++ (b₃ ++ ("=".toList ++ b₄))) := by
    rw [List.mem_append, not_or] at hsign
    simp only [List.mem_append, hnot hc hb.1.1.2, hnot hc hb.1.2, hnot hc hb.2, hsign, or_self,
      not_false_eq_true]
  exact ⟨b₁, _, hb.1.1.1, habsent (by decide) (by decide), habsent (by decide) (by decide), rfl⟩

/-- A place of code inside the head of a marker stands before the second slash. -/
theorem MarkerHead.place {h : Text} (hh : MarkerHead h) {inComment : Bool} {ahead : Option Char}
    {a u : Text} (hcode : ((Mode.ofLine inComment).after ahead a).inCode = true) (e : h = a ++ u) :
    ∃ d v, u = d :: v ∧ (Text.isBlank d = true ∨ d = '/') := by
  obtain ⟨b, q, hb, hq, hstar, rfl⟩ := hh.slashes
  rw [← List.append_assoc] at e
  have hbehind {v w : Text} (hv : q = v ++ w) (ha : a = b ++ "//".toList ++ v) : False := by
    have := inCode_after_slashes inComment ahead hb
      (fun k => hq (by rw [hv]; exact List.mem_append_left w k))
      (fun k => hstar (by rw [hv]; exact List.mem_append_left w k))
    rw [← List.append_assoc, ← ha, hcode] at this
    cases this
  rcases List.append_eq_append_iff.mp e with ⟨v, ha, hv⟩ | ⟨v, ha, hv⟩
  · exact (hbehind hv ha).elim
  · cases v with
    | nil => exact (@hbehind [] q rfl (by rw [ha, List.append_nil, List.append_nil])).elim
    | cons d v =>
      refine ⟨d, v ++ q, hv, ?_⟩
      have hd : d ∈ b ++ "//".toList := by
        rw [ha]
        exact List.mem_append_right a List.mem_cons_self
      rcases List.mem_append.mp hd with hd | hd
      · exact .inl (hb d hd)
      · exact .inr (by simpa using hd)

/-- The text goes along with the cells up to one of code, and there with a character that begins
neither blanks nor a comment. -/
def DepartsInCode (cs : List Cell) (l : Text) : Prop :=
  ∃ a x b c rest, cs = a ++ x :: b ∧ x.region = .code ∧ l = writtenText a ++ c :: rest ∧
    Text.isBlank c = false ∧ c ≠ '/'

theorem ScriptLine.IsRead.isMarkerLine_departs {line : ScriptLine} (hline : line.IsRead) {l : Text}
    (h : DepartsInCode line.cells l) (hmarker : isMarkerLine line.text = false) :
    isMarkerLine l = false := by
  obtain ⟨a, x, b, c, rest, hcells, hx, rfl, hblank, hslash⟩ := h
  have hread := hline.cells_eq.symm.trans hcells
  have htext := (cellsFrom_at hread).1
  -- The character is met in code.
  have hn : x.char ≠ '\n' :=
    fun e => hline.2 (by rw [htext, e]; exact List.mem_append_right _ List.mem_cons_self)
  have hcode :
      ((Mode.ofLine line.inComment).after (some x.char) (writtenText a)).inCode = true := by
    obtain ⟨k, e⟩ := mode_at_code hread hn hx
    rw [e]
    rfl
  refine Bool.eq_false_iff.mpr fun hnew => ?_
  obtain ⟨h, y, rest', hh, hy, e⟩ := (isMarkerLine_iff _).mp hnew
  rcases List.append_eq_append_iff.mp e with ⟨u, e', hu⟩ | ⟨u, ha, hu⟩
  · -- The head of the marker goes on behind the place.
    obtain ⟨d, v, rfl, hd⟩ := hh.place hcode e'
    obtain rfl : c = d := (List.cons.inj hu).1
    rcases hd with hd | hd
    · rw [hd] at hblank
      cases hblank
    · exact hslash hd
  · cases u with
    | nil =>
      obtain ⟨d, v, hd, -⟩ :=
        hh.place hcode (u := []) (by rw [ha, List.append_nil, List.append_nil])
      cases hd
    | cons z u =>
      -- The whole marker stands before the place.
      rw [List.cons_append, List.cons.injEq] at hu
      have hold : isMarkerLine line.text = true := by
        refine (isMarkerLine_iff _).mpr ⟨h, y, u ++ x.char :: writtenText b, hh, hy, ?_⟩
        rw [htext, ha, hu.1, List.append_assoc, List.cons_append]
      rw [hold] at hmarker
      cases hmarker

theorem find?_marker_line {l : Text} (hl : Text.OneLine l) :
    (isMarkerLine l = false ∧ marker.find? l = none) ∨
      isMarkerLine l = true ∧ ∃ m, marker.find? l = some m ∧ m.start = 0 ∧ some m.value =
        marker.readAt? l := by
  have hin : InLine l := fun c hc e => hl (e ▸ hc)
  have hread : marker.readAt? l = (marker none l).map Prod.fst := rfl
  rcases Pattern.segments_atLineStart lineWise_marker.advances hin with ⟨hnone, hsegs⟩ | ⟨taken, v,
    rest, -, -, hsome, hsegs⟩
  · refine .inl ⟨?_, ?_⟩
    · rw [isMarkerLine, hread, marker_none_eq, hnone]
      rfl
    · rw [Pattern.find?, Pattern.findAll]
      exact congrArg List.head?
        ((congrArg (matchesFrom 0) hsegs).trans (Pattern.matchesFrom_plain 0 l))
  · refine .inr ⟨?_, ⟨0, taken, v⟩, ?_, rfl, ?_⟩
    · rw [isMarkerLine, hread, marker_none_eq, hsome]
      rfl
    · rw [Pattern.find?, Pattern.findAll]
      exact congrArg List.head? (congrArg (matchesFrom 0) hsegs)
    · rw [hread, marker_none_eq, hsome]
      rfl

theorem find?_marker_newline (l t : Text) :
    marker.find? (l ++ '\n' :: t) =
      (marker.find? l).or
        ((marker.find? t).map fun m => { m with start := l.length + 1 + m.start }) := by
  have hall := lineWise_marker.findAll_newline l (n := '\n') rfl t
  rw [Pattern.find?, hall, List.head?_append, List.head?_map]
  rfl

theorem find?_marker_value (t : Text) :
    (marker.find? t).map Match.value = (Text.lines t).findSome? marker.readAt? := by
  have hline {l : Text} (hl : Text.OneLine l) : (marker.find? l).map Match.value =
      marker.readAt? l := by
    rcases find?_marker_line hl with ⟨hno, e⟩ | ⟨-, m, e, -, hvalue⟩
    · rw [e]
      exact (Option.not_isSome_iff_eq_none.mp
        (by rw [← isMarkerLine, hno]; exact Bool.false_ne_true)).symm
    · rw [e, ← hvalue]
      rfl
  induction t using Text.lines_induction with
  | last l hl =>
    rw [Text.lines_of_oneLine hl, hline hl, List.findSome?_cons, List.findSome?_nil]
    cases marker.readAt? l <;> rfl
  | more l t hl ih =>
    rw [Text.lines_append_newline hl, find?_marker_newline, List.findSome?_cons, ← hline hl]
    cases marker.find? l with
    | some m => rfl
    | none =>
      rw [Option.none_or, Option.map_map, Option.map_none, ← ih]
      rfl

/-- The first line of a script that states a version is the given one. -/
def FirstMarker (l : Text) (t : Text) : Prop :=
  ∃ before after, Text.lines t = before ++ l :: after ∧ (∀ l' ∈ before, isMarkerLine l' = false) ∧
    isMarkerLine l = true

def Marked (v : ScriptVersion) (t : Text) : Prop := FirstMarker v.marker t

theorem isMarkerLine_marker (v : ScriptVersion) : isMarkerLine v.marker = true := by
  cases v <;> decide +kernel

theorem oneLine_marker (v : ScriptVersion) : Text.OneLine v.marker := by
  cases v <;> decide

theorem FirstMarker.findSome? {l t : Text} (h : FirstMarker l t) :
    (Text.lines t).findSome? marker.readAt? = marker.readAt? l := by
  obtain ⟨before, after, e, hbefore, hl⟩ := h
  have hnone : before.findSome? marker.readAt? = none :=
    List.findSome?_eq_none_iff.mpr fun l' hl' =>
      Option.not_isSome_iff_eq_none.mp
        (by rw [← isMarkerLine, hbefore l' hl']; exact Bool.false_ne_true)
  obtain ⟨digits, hdigits⟩ := Option.isSome_iff_exists.mp hl
  rw [e, List.findSome?_append, hnone, Option.none_or, List.findSome?_cons, hdigits]

def versionOfDigits (fallback : ScriptVersion) :
    Option Text → Except Decimal.NumeralError ScriptVersion
  | none => .ok fallback
  | some digits => (Decimal.readDigits digits).map fun n =>
    (ScriptVersion.ofNumber? n).getD fallback

theorem detectVersion_eq (t : Text) (fallback : ScriptVersion) :
    detectVersion t fallback =
      versionOfDigits fallback ((Text.lines t).findSome? marker.readAt?) := by
  rw [← find?_marker_value, detectVersion, findMarker]
  cases marker.find? t with
  | none => rfl
  | some m =>
    rw [Option.map_some, versionOfDigits]
    dsimp only
    cases Decimal.readDigits m.value <;> rfl

theorem versionOfDigits_marker (fallback v : ScriptVersion) :
    versionOfDigits fallback (marker.readAt? v.marker) = .ok v := by
  cases v <;> cases fallback <;> decide +kernel

theorem Marked.detectVersion {v : ScriptVersion} {t : Text} (h : Marked v t)
    (fallback : ScriptVersion) :
    detectVersion t fallback = .ok v := by
  rw [detectVersion_eq, FirstMarker.findSome? h, versionOfDigits_marker]

/-- No character of a canonical marker lies in code, and the comment that it stands in, if any, goes
on behind it. -/
theorem readLine_marker (v : ScriptVersion) (inComment : Bool) :
    (∀ c ∈ (readLine inComment v.marker).cells, c.region ≠ .code) ∧
      (readLine inComment v.marker).leaves v.marker = inComment := by
  cases v <;> cases inComment <;> decide +kernel

/-- Lines of any script are kept, or rewritten from a place of code on. -/
def Departing (g : ScriptLine → Text) : Prop :=
  ∀ line : ScriptLine, line.IsRead → g line = line.text ∨ DepartsInCode line.cells (g line)

/-- Markers are kept, and no line becomes one. -/
structure KeepsMarkers (g : ScriptLine → Text) : Prop where
  marker : ∀ (v : ScriptVersion) (inComment : Bool), g (readLine inComment v.marker) = v.marker
  not_marker : ∀ line : ScriptLine, line.IsRead → isMarkerLine line.text = false →
    isMarkerLine (g line) = false

section RewriteLines

variable {g : ScriptLine → Text}

theorem Departing.keepsMarkers (hg : Departing g) : KeepsMarkers g := by
  refine ⟨fun v inComment => ?_, fun line hline hno => ?_⟩
  · rcases hg _ (ScriptLine.isRead_readLine inComment (oneLine_marker v)) with e | ⟨a, x, b, -, -,
      hcells, hx, -⟩
    · rw [e, ScriptLine.readLine_text]
    · exact absurd hx
        ((readLine_marker v inComment).1 x (hcells ▸ List.mem_append_right a List.mem_cons_self))
  · rcases hg line hline with e | hdeparts
    · rw [e]
      exact hno
    · exact hline.isMarkerLine_departs hdeparts hno

variable (hg : KeepsMarkers g) {before after : List Text}
include hg

theorem KeepsMarkers.rewriteLines_marker (v : ScriptVersion) :
    rewriteLines g false (before ++ v.marker :: after) =
    rewriteLines g false before ++ v.marker :: rewriteLines g (leavesAll false before) after := by
  rw [rewriteLines_append, rewriteLines_cons, hg.marker, (readLine_marker v _).2]

theorem KeepsMarkers.not_marker_lines (hone : ∀ l ∈ before, Text.OneLine l)
    (hbefore : ∀ l ∈ before, isMarkerLine l = false) :
    ∀ l ∈ rewriteLines g false before, isMarkerLine l = false := by
  intro l hl
  obtain ⟨line, hline, rfl⟩ := List.mem_map.mp hl
  obtain ⟨hread, hmem⟩ := isRead_of_mem_readLines hone hline
  exact hg.not_marker line hread (hbefore _ hmem)

theorem KeepsMarkers.comp {g' : ScriptLine → Text} (hg' : KeepsMarkers g')
    (hkeeps : KeepsReading g) :
    KeepsMarkers fun line => g' (reread g line) := by
  refine ⟨fun v inComment => ?_, fun line hline hno => ?_⟩
  · have hsame := reread_of_text (ScriptLine.isRead_readLine inComment (oneLine_marker v))
      (by rw [hg.marker, ScriptLine.readLine_text] : g (readLine inComment v.marker) = (readLine
        inComment v.marker).text)
    rw [hsame, hg'.marker]
  · refine hg'.not_marker _ (hkeeps.isRead hline) ?_
    rw [reread, ScriptLine.readLine_text]
    exact hg.not_marker line hline hno

end RewriteLines

section Substitution

variable {β : Type} {p : Pattern Cell β} {replacement : List Cell → β → Text}

/-- Replacing a match keeps it, or goes along with it up to a place of code. -/
def KeepsOrDeparts (taken : List Cell) (l : Text) : Prop :=
  Text.OneLine l ∧ (l = writtenText taken ∨ DepartsInCode taken l)

theorem rewriteCells_keepsOrDeparts (hp : p.Advances) {cs : List Cell}
    (hcs : Text.OneLine (writtenText cs)) (h : ∀ a taken b v, cs = a ++ (taken ++ b) →
      p (Pattern.passed none a) (taken ++ b) = some (v, b) →
      KeepsOrDeparts taken (replacement taken v)) :
        KeepsOrDeparts cs (rewriteCells p replacement cs) := by
  suffices ∀ before gs segs, Pattern.Segmented p before gs segs → ∀ a, cs = a ++ gs → before =
    Pattern.passed none a →
      KeepsOrDeparts gs (rebuild Cell.char replacement none segs).1 from
    this none cs _ (Pattern.segmented_segments hp cs) [] rfl rfl
  intro before gs segs hsegs
  induction hsegs with
  | done _ => exact fun _ _ _ => ⟨List.not_mem_nil, .inl rfl⟩
  | @plain before g gs segs _ _ ih =>
    intro a e hbefore
    obtain ⟨hone, hkeep⟩ := ih (a ++ [g]) (by rw [e, List.append_assoc, List.singleton_append])
      (by rw [Pattern.passed_append, ← hbefore]; rfl)
    refine ⟨?_, ?_⟩
    · have hg : g.char ≠ '\n' := by
        rintro hn
        apply hcs
        rw [e, ← hn]
        exact List.mem_map_of_mem (List.mem_append_right a List.mem_cons_self)
      exact fun k => (List.mem_cons.mp k).elim (fun e => hg e.symm) hone
    · rcases hkeep with hkeep | ⟨a', x, b, c, rest, e', hx, hkeep, hc⟩
      · exact .inl (congrArg (g.char :: ·) hkeep)
      · exact .inr ⟨g :: a', x, b, c, rest, by
          rw [e', List.cons_append], hx, congrArg (g.char :: ·) hkeep, hc⟩
  | @found before taken gs v segs hne happ _ ih =>
    intro a e hbefore
    obtain ⟨hone, hkeep⟩ :=
      ih (a ++ taken) (by rw [e, List.append_assoc]) (by rw [Pattern.passed_append, ← hbefore])
    obtain ⟨hone', hkeep'⟩ := h a taken gs v e (hbefore ▸ happ)
    have hwritten : (rebuild Cell.char replacement none (.found taken v :: segs)).1 =
        replacement taken v ++ (rebuild Cell.char replacement none segs).1 := rfl
    rw [hwritten]
    refine ⟨fun k => (List.mem_append.mp k).elim hone' hone, ?_⟩
    rcases hkeep' with hkeep' | ⟨a', x, b, c, rest, e', hx, hkeep', hc⟩
    · rcases hkeep with hkeep | ⟨a', x, b, c, rest, e', hx, hkeep, hc⟩
      · exact .inl (by rw [hkeep, hkeep', writtenText_append])
      · refine .inr ⟨taken ++ a', x, b, c, rest, by rw [e', List.append_assoc], hx, ?_, hc⟩
        rw [hkeep, hkeep', writtenText_append, List.append_assoc]
    · refine .inr ⟨a', x, b ++ gs, c, rest ++ (rebuild Cell.char replacement none segs).1,
        ?_, hx, ?_, hc⟩
      · rw [e', List.append_assoc, List.cons_append]
      · rw [hkeep', List.append_assoc, List.cons_append]

/-- On every line of a script the matches are kept, or replaced from a place of code on. -/
structure Rewrites (p : Pattern Cell β) (replacement : List Cell → β → Text) : Prop where
  lineWise : p.LineWise
  keeps : ∀ line : ScriptLine, line.IsRead → ∀ a taken b v, line.cells = a ++ (taken ++ b) →
    p (Pattern.passed none a) (taken ++ b) = some (v, b) →
    KeepsOrDeparts taken (replacement taken v)

namespace Rewrites

theorem line (h : Rewrites p replacement) {line : ScriptLine} (hline : line.IsRead) :
    KeepsOrDeparts line.cells (rewriteCells p replacement line.cells) :=
  rewriteCells_keepsOrDeparts h.lineWise.advances hline.2 (h.keeps line hline)

theorem keepsMarkers (h : Rewrites p replacement) :
    KeepsMarkers fun line => rewriteCells p replacement line.cells :=
  Departing.keepsMarkers fun _ hline => (h.line hline).2

theorem lines_substitute (h : Rewrites p replacement) (t : Text) :
    Text.lines (substitute p replacement t).1 =
    rewriteLines (fun line => rewriteCells p replacement line.cells) false (Text.lines t) := by
  refine PineTools.lines_substitute replacement h.lineWise fun line hline => (h.line ?_).1
  exact isRead_of_mem_scriptLines hline

/-- A script keeps its marker when matches are replaced in code. -/
theorem marked (h : Rewrites p replacement) {v : ScriptVersion} {t : Text} (ht : Marked v t) :
    Marked v (substitute p replacement t).1 := by
  obtain ⟨before, after, e, hbefore, hmarker⟩ := ht
  have hone : ∀ l ∈ before, Text.OneLine l := fun l hl =>
    Text.oneLine_of_mem_lines (t := t) (by rw [e]; exact List.mem_append_left _ hl)
  have hlines := h.lines_substitute t
  rw [e, h.keepsMarkers.rewriteLines_marker] at hlines
  exact ⟨_, _, hlines, h.keepsMarkers.not_marker_lines hone hbefore, hmarker⟩

end Rewrites

end Substitution

theorem split_at_marker {before after : List Text} {l : Text}
    (hbefore : ∀ l' ∈ before, isMarkerLine l' = false) (hl : isMarkerLine l = true) :
    (before ++ l :: after).takeWhile (fun l => !isMarkerLine l) = before ∧
      (before ++ l :: after).dropWhile (fun l => !isMarkerLine l) = l :: after := by
  have hall : ∀ l' ∈ before, (!isMarkerLine l') = true := fun l' hl' => by rw [hbefore l' hl']; rfl
  rw [List.takeWhile_append_of_pos hall, List.dropWhile_append_of_pos hall, List.takeWhile_cons,
    List.dropWhile_cons, hl]
  exact ⟨List.append_nil before, rfl⟩

namespace Convert

/-- What a marker makes of a script: its first marker line is replaced, or a line is put in front.
-/
theorem lines_setMarker (v : ScriptVersion) (t : Text) :
    (∃ before l after, Text.lines t = before ++ l :: after ∧
      (∀ l' ∈ before, isMarkerLine l' = false) ∧
        isMarkerLine l = true ∧ Text.lines (setMarker v t) = before ++ v.marker :: after) ∨
      (∀ l ∈ Text.lines t, isMarkerLine l = false) ∧ Text.lines (setMarker v t) =
        v.marker :: Text.lines t := by
  suffices (∀ m, marker.find? t = some m → ∃ before l after, Text.lines t = before ++ l :: after ∧
        (∀ l' ∈ before, isMarkerLine l' = false) ∧ isMarkerLine l = true ∧
        Text.lines (t.take m.start ++ v.marker ++ (t.drop m.start).dropWhile (· != '\n')) =
          before ++ v.marker :: after) ∧
      (marker.find? t = none → ∀ l ∈ Text.lines t, isMarkerLine l = false) by
    rw [setMarker]
    cases hfind : marker.find? t with
    | some m => exact .inl (this.1 m hfind)
    | none => exact .inr ⟨this.2 hfind, Text.lines_append_newline (oneLine_marker v) t⟩
  have hdrop {l : Text} (hl : Text.OneLine l) : l.dropWhile (· != '\n') = [] :=
    List.dropWhile_eq_nil_iff.mpr fun c hc => bne_iff_ne.mpr fun (e : c = '\n') => hl (e ▸ hc)
  induction t using Text.lines_induction with
  | last l hl =>
    rw [Text.lines_of_oneLine hl]
    rcases find?_marker_line hl with ⟨hno, e⟩ | ⟨hyes, m, e, hstart, -⟩
    · rw [e]
      exact ⟨fun m h => absurd h (Option.some_ne_none m).symm, fun _ =>
        List.forall_mem_singleton.mpr hno⟩
    · rw [e]
      refine ⟨fun m' h => ?_, fun h => absurd h (Option.some_ne_none m)⟩
      obtain rfl := Option.some.inj h
      refine ⟨[], l, [], rfl, fun l' h => absurd h List.not_mem_nil, hyes, ?_⟩
      rw [hstart, List.take_zero, List.drop_zero, hdrop hl, List.nil_append, List.append_nil]
      exact Text.lines_of_oneLine (oneLine_marker v)
  | more l t hl ih =>
    rw [find?_marker_newline, Text.lines_append_newline hl]
    rcases find?_marker_line hl with ⟨hno, e⟩ | ⟨hyes, m, e, hstart, -⟩
    · rw [e, Option.none_or]
      refine ⟨fun m' h => ?_, fun h => ?_⟩
      · obtain ⟨m, hfind, rfl⟩ := Option.map_eq_some_iff.mp h
        obtain ⟨before, l', after, hlines, hbefore, hl', hnew⟩ := ih.1 m hfind
        refine ⟨l :: before, l', after, by
          rw [hlines, List.cons_append], List.forall_mem_cons.mpr ⟨hno, hbefore⟩, hl', ?_⟩
        have hstart : l.length + 1 + m.start = l.length + (m.start + 1) := by omega
        simp only [hstart, List.take_length_add_append, List.drop_length_add_append,
          List.take_succ_cons, List.drop_succ_cons, List.append_assoc, List.cons_append,
          Text.lines_append_newline hl]
        rw [← hnew]
        simp only [List.append_assoc]
      · exact List.forall_mem_cons.mpr ⟨hno, ih.2 (Option.map_eq_none_iff.mp h)⟩
    · rw [e, Option.some_or]
      refine ⟨fun m' h => ?_, fun h => absurd h (Option.some_ne_none m)⟩
      obtain rfl := Option.some.inj h
      refine ⟨[], l, Text.lines t, rfl, fun l' h => absurd h List.not_mem_nil, hyes, ?_⟩
      have hrest : (l ++ '\n' :: t).dropWhile (· != '\n') = '\n' :: t := by
        rw [List.dropWhile_append_of_pos fun c hc => bne_iff_ne.mpr fun (e : c = '\n') =>
          hl (e ▸ hc)]
        rfl
      rw [hstart, List.take_zero, List.drop_zero, hrest, List.nil_append]
      exact Text.lines_append_newline (oneLine_marker v) t

theorem marked_setMarker (v : ScriptVersion) (t : Text) : Marked v (setMarker v t) := by
  rcases lines_setMarker v t with ⟨before, l, after, -, hbefore, -, e⟩ | ⟨-, e⟩
  · exact ⟨before, after, e, hbefore, isMarkerLine_marker v⟩
  · exact ⟨[], Text.lines t, e, fun l' h => absurd h List.not_mem_nil, isMarkerLine_marker v⟩

theorem lines_setMarker_at {t : Text} {before after : List Text} {l : Text}
    (h : Text.lines t = before ++ l :: after) (hbefore : ∀ l' ∈ before, isMarkerLine l' = false)
    (hl : isMarkerLine l = true) (v : ScriptVersion) :
    Text.lines (setMarker v t) = before ++ v.marker :: after := by
  rcases lines_setMarker v t with ⟨before', l', after', h', hbefore', hl', e⟩ | ⟨hnone, -⟩
  · have hsplit := @split_at_marker before after l hbefore hl
    rw [← h, h', (@split_at_marker before' after' l' hbefore' hl').1,
      (@split_at_marker before' after' l' hbefore' hl').2, List.cons.injEq] at hsplit
    rw [e, hsplit.1, hsplit.2.2]
  · rw [hnone l (h ▸ List.mem_append_right before List.mem_cons_self)] at hl
    cases hl

theorem eq_of_lines {t t' : Text} (h : Text.lines t = Text.lines t') : t = t' := by
  rw [← Text.unlines_lines t, h, Text.unlines_lines]

theorem substitute_setMarker {β : Type} {p : Pattern Cell β} {replacement : List Cell → β → Text}
    (h : Rewrites p replacement) {u : ScriptVersion} {t : Text} (ht : Marked u t)
    (v : ScriptVersion) :
    (substitute p replacement (setMarker v t)).1 = setMarker v (substitute p replacement t).1 := by
  obtain ⟨before, after, e, hbefore, hmarker⟩ := ht
  have hone : ∀ l ∈ before, Text.OneLine l := fun l hl =>
    Text.oneLine_of_mem_lines (t := t) (by rw [e]; exact List.mem_append_left _ hl)
  have hrewritten := h.lines_substitute t
  rw [e, h.keepsMarkers.rewriteLines_marker] at hrewritten
  refine eq_of_lines ?_
  rw [lines_setMarker_at hrewritten (h.keepsMarkers.not_marker_lines hone hbefore) hmarker,
    h.lines_substitute, lines_setMarker_at e hbefore hmarker, h.keepsMarkers.rewriteLines_marker]

theorem setMarker_setMarker {u : ScriptVersion} {t : Text} (ht : Marked u t) (v : ScriptVersion) :
    setMarker u (setMarker v t) = t := by
  obtain ⟨before, after, e, hbefore, hmarker⟩ := ht
  refine eq_of_lines ?_
  rw [lines_setMarker_at (lines_setMarker_at e hbefore hmarker v) hbefore (isMarkerLine_marker v),
    e]

end Convert

end PineTools
