import PineTools.Proofs.Construct.Statements
import PineTools.Proofs.Repair.Renames

/-! Exported variables. Their lines are written anew, with the comment behind the value kept. A
comment elsewhere in the line is lost or written twice, and so is the rest of one that begins or
ends on another line. -/
namespace PineTools.Repair

open Mode

theorem cells_of_blank {tail : List Cell} (hcells : cells (writtenText tail) = tail) {c : Cell}
    (hc : c ∈ tail) (hb : Text.isBlank c.masked = true) : c.char ≠ '\n' ∧
    c.region.isLiteral = false := by
  refine @region_of_blank .start (writtenText tail) c ?_ hb
  rw [← cells, hcells]
  exact hc

theorem take_stretch {t : Text} {a rest : List Cell} (h : cells t = a ++ rest) :
    t.take a.length = writtenText a := by
  rw [← cellsFrom_chars .start t, ← cells, h, List.map_append, List.take_left' (List.length_map _)]
  rfl

theorem readsAlike_of_blank {t : Text} {gap rest : List Cell} (hcells : cells t = gap ++ rest)
    (hblank : ∀ c ∈ gap, Text.isBlank c.masked = true) {b : Bool}
    (hcode : modeAt t gap.length = .code b) (ahead : Option Char) :
    ReadsAlike .start (writtenText gap) (writtenText rest).head? ahead := by
  rcases List.eq_nil_or_concat gap with rfl | ⟨gs, g, rfl⟩
  · exact readsAlike_nil _ _ _
  rw [List.concat_eq_append] at *
  have hsplit : cells t = gs ++ g :: rest := by
    rw [hcells, List.append_assoc, List.singleton_append]
  obtain ⟨behind, hdrop, hstep⟩ := read_cell hsplit
  have hbehind : behind = writtenText rest := by
    rw [drop_stretch hsplit, writtenText, List.map_cons, List.cons.injEq] at hdrop
    exact hdrop.2.symm
  have hmode : modeAt t gs.length = Mode.start.after (some g.char) (writtenText gs) := by
    rw [modeAt, hdrop, take_stretch hsplit]
    rfl
  rw [List.length_append, List.length_singleton] at hcode
  rw [hmode, hbehind, hcode] at hstep
  have hslash : g.masked ≠ '/' := by
    intro e
    have := hblank g (List.mem_append_right gs (List.mem_singleton_self g))
    rw [e] at this
    exact absurd this (by decide)
  rw [writtenText, List.map_append, List.map_singleton]
  apply readsAlike_concat
  refine (step_of_hidden (congrArg Prod.snd hstep) ?_ ahead).symm
  rw [hstep]
  exact hslash

theorem masked_of_blank {c : Cell} (hb : Text.isBlank c.masked = true) {d : Char}
    (hd : Text.isBlank d = false) : c.masked ≠ d := by
  intro e
  rw [e, hd] at hb
  cases hb

theorem semicolon_code {t : Text} {c : Cell} (h : c ∈ cells t) (hc : c.masked = ';') :
    c.region = .code ∧ c.char = ';' := by
  rw [← hc]
  refine code_of_masked h ?_ ?_ ?_ fun q => ?_
  · rw [hc]; decide
  · rw [hc]; decide
  · rw [hc]; decide
  · rw [hc]; cases q <;> decide

theorem notes_drop_semicolon {t : Text} {gap rest : List Cell} {c : Cell}
    (hcells : cells t = gap ++ c :: rest) (hblank : ∀ c ∈ gap, Text.isBlank c.masked = true)
    (hc : c.masked = ';') :
    notes (writtenText gap ++ writtenText rest) = notes t ∧
      Mode.start.after none (writtenText gap ++ writtenText rest) = Mode.start.after none t := by
  obtain ⟨hregion, hchar⟩ :=
    @semicolon_code t c (by rw [hcells]; exact List.mem_append_right gap List.mem_cons_self) hc
  obtain ⟨b, hb⟩ := modeAt_before_code hcells hregion (by rw [hchar]; decide)
  have hlast : ∀ x, gap.getLast? = some x → x.masked ≠ '\\' :=
    fun x hx => masked_of_blank (hblank x (List.mem_of_getLast? hx)) (by decide)
  have hmode := modeAt_after_shown hcells hlast hb
  have ht : t = writtenText gap ++ ';' :: writtenText rest := by
    have := congrArg writtenText hcells
    rwa [writtenText, cells, cellsFrom_chars, writtenText, List.map_append, List.map_cons,
      hchar] at this
  have hreads := readsAlike_of_blank hcells hblank hmode
  have hmode' : ∀ ahead, Mode.start.after ahead (writtenText gap) = .start := by
    intro ahead
    rw [← (hreads ahead).2, ← take_stretch hcells, ← drop_stretch hcells]
    exact hmode
  have hsplit (u : Text) : notes (writtenText gap ++ u) = notes (writtenText gap) ++ notes u ∧
      Mode.start.after none (writtenText gap ++ u) = Mode.start.after none u := by
    constructor
    · refine notesFrom_append ?_ (.inl (.inl (hmode' none))) atNote_start
      exact ⟨(hreads none).1.symm.trans (hreads u.head?).1, by rw [hmode', hmode']⟩
    · rw [Mode.after_append, hmode']
  have hsemicolon := @notes_tame_append [';'] (by decide) (writtenText rest)
  rw [List.singleton_append] at hsemicolon
  rw [ht, (hsplit _).1, (hsplit _).2, (hsplit _).1, (hsplit _).2, hsemicolon.1, hsemicolon.2]
  exact ⟨rfl, rfl⟩

/-- A line whose last character lies neither in a line comment nor in a literal ends in code or in a
block comment. -/
theorem inCode_of_last {m : Mode} {c : Char} (hb : (m.step c none).2.inBlock = false)
    (hl : (m.step c none).1.region ≠ .lineComment)
    (hq : (m.step c none).1.region.isLiteral = false) :
    (m.step c none).2.inCode = true := by
  cases m with
  | code b =>
    rw [step] at *
    obtain ⟨-, e, -⟩ | ⟨-, e, -⟩ | ⟨q, -, -, e⟩ | ⟨-, -, e⟩ := stepCode_cases b c none
    · cases e
    · cases e
    · rw [e] at hq; cases hq
    · rw [e]; rfl
  | literal q =>
    rw [step] at *
    obtain ⟨-, e⟩ | ⟨-, e⟩ | ⟨-, -, e⟩ | ⟨-, -, -, e⟩ := stepLiteral_cases q c none
    · rw [e]; rfl
    · rw [e]; rfl
    · rw [e] at hq; cases hq
    · rw [e] at hq; cases hq
  | line =>
    by_cases hc : c = '\n'
    · subst hc; rfl
    · simp [step, hc] at hl
  | block => simp [step, inBlock] at hb
  | lineSecond => exact absurd rfl hl
  | blockSecond => cases hb
  | blockLast => rfl
  | escaped q => cases hq

theorem exportTail_kept {tail : List Cell} (h : ExportTail tail)
    (hcells : cells (writtenText tail) = tail) :
    ∃ kept, tail.eraseP (fun c => Glyph.seen c == ';') = kept ∧
    (∀ c ∈ kept, c ∈ tail ∧ Text.isBlank c.masked = true) ∧
      notes (writtenText kept) = notes (writtenText tail) ∧
      Mode.start.after none (writtenText kept) = Mode.start.after none (writtenText tail) ∧
      (kept.getLast? = tail.getLast? ∨ ∃ c, tail.getLast? = some c ∧ c.masked = ';') := by
  obtain ⟨gap, semicolon, rest, rfl, hlen, hsemicolon, hblank⟩ := h
  obtain ⟨hgap, hrest⟩ := List.forall_mem_append.mp hblank
  have hother : ∀ c ∈ gap ++ rest, ¬(Glyph.seen c == ';') = true := fun c hc e => by
    have hb : Text.isBlank c.masked = true := hblank c hc
    exact masked_of_blank hb (by decide) (beq_iff_eq.mp e)
  match semicolon, hlen with
  | [], _ =>
    rw [List.nil_append, List.eraseP_of_forall_not hother]
    exact ⟨_, rfl, fun c hc => ⟨hc, hblank c hc⟩, rfl, rfl, .inl rfl⟩
  | [s], _ =>
    have hs : s.masked = ';' := hsemicolon s (List.mem_singleton_self s)
    rw [List.singleton_append] at hcells ⊢
    have hnot : ∀ c ∈ gap, ¬(Glyph.seen c == ';') = true :=
      fun c hc => hother c (List.mem_append_left rest hc)
    have herase : (s :: rest).eraseP (fun c => Glyph.seen c == ';') = rest :=
      @List.eraseP_cons_of_pos _ s rest (fun c => Glyph.seen c == ';') (beq_iff_eq.mpr hs)
    rw [List.eraseP_append_right _ hnot, herase]
    obtain ⟨hnotes, hafter⟩ := notes_drop_semicolon hcells hgap hs
    rw [writtenText, writtenText, ← List.map_append] at hnotes hafter
    refine ⟨gap ++ rest, rfl, fun c hc => ⟨?_, hblank c hc⟩, hnotes, hafter, ?_⟩
    · rcases List.mem_append.mp hc with hc | hc
      · exact List.mem_append_left _ hc
      · exact List.mem_append_right gap (List.mem_cons_of_mem s hc)
    · cases rest with
      | nil => exact .inr ⟨s, List.getLast?_concat, hs⟩
      | cons c cs => exact .inl (by simp [List.getLast?_append])

theorem read_last {t : Text} {c : Cell} (h : (cells t).getLast? = some c) :
    c ∈ cells t ∧ ∃ m : Mode, m.step c.char none = (c, Mode.start.after none t) := by
  obtain ⟨init, e⟩ := List.getLast?_eq_some_iff.mp h
  obtain ⟨behind, hdrop, hstep⟩ := read_cell e
  have hbehind : behind = [] := by
    rw [drop_stretch e] at hdrop
    exact (List.cons.inj hdrop).2.symm
  have hlen : init.length + 1 = t.length := by
    rw [← cellsFrom_length .start t, ← cells, e, List.length_append, List.length_singleton]
  rw [hbehind, hlen, modeAt_length] at hstep
  exact ⟨List.mem_of_getLast? h, _, hstep⟩

/-- The comment behind an exported variable is kept, unless it goes on in the next line or ends in
white space. -/
theorem notes_exportComment {tail : List Cell} (htail : ExportTail tail)
    (hcells : cells (writtenText tail) = tail)
    (hblock : (Mode.start.after none (writtenText tail)).inBlock = false)
    (hlast : ∀ c, tail.getLast? = some c → c.region = .lineComment → Text.isSpace c.char = false) :
    notes (exportComment tail) = notes (writtenText tail) ∧
      (Mode.start.after none (exportComment tail)).inBlock = false := by
  obtain ⟨kept, hkept, hblank, hnotes, hafter, hends⟩ := exportTail_kept htail hcells
  rw [exportComment, hkept, ← hnotes]
  rw [← hafter] at hblock
  cases hcode : (Mode.start.after none (writtenText kept)).inCode with
  | true =>
    have hline : Text.OneLine (writtenText kept) := by
      intro k
      obtain ⟨c, hc, e⟩ := List.mem_map.mp k
      exact (cells_of_blank hcells (hblank c hc).1 (hblank c hc).2).1 e
    obtain ⟨hstrip, hcode'⟩ := notes_strip hline hcode
    refine ⟨hstrip, ?_⟩
    cases hm : Mode.start.after none (Text.strip (writtenText kept)) <;> rw [hm] at hcode' <;>
      first | rfl | cases hcode'
  | false =>
    -- The line ends in a line comment, whose text must not end in white space.
    have hline : ∀ c, tail.getLast? = some c → c.region.isLiteral = false → c.region =
        .lineComment := by
      intro c hc hq
      rw [← hcells] at hc
      obtain ⟨-, m, hstep⟩ := read_last hc
      rw [← hafter] at hstep
      refine Classical.byContradiction fun hl => ?_
      have := @inCode_of_last m c.char
      rw [hstep] at this
      rw [this hblock hl hq] at hcode
      cases hcode
    have hsolid : ∀ x, (writtenText kept).getLast? = some x → Text.isSpace x = false := by
      intro x hx
      rw [writtenText, List.getLast?_map, Option.map_eq_some_iff] at hx
      obtain ⟨c, hc, rfl⟩ := hx
      rcases hends with e | ⟨d, hd, hsemicolon⟩
      · rw [e] at hc
        obtain ⟨hmem, hb⟩ := hblank c (List.mem_of_getLast? (e ▸ hc))
        exact hlast c hc (hline c hc (cells_of_blank hcells hmem hb).2)
      · have hregion := semicolon_code (hcells ▸ List.mem_of_getLast? hd) hsemicolon
        have := hline d hd (by rw [hregion.1]; rfl)
        rw [hregion.1] at this
        cases this
    obtain ⟨hstrip, hafter'⟩ := notes_strip_of_solid hsolid
    exact ⟨hstrip, hafter' ▸ hblock⟩

/-- What is written behind the value of an exported variable. -/
def exportSuffix (tail : List Cell) : Text :=
  if (exportComment tail).isEmpty then [] else ' ' :: ' ' :: exportComment tail

theorem notes_append_code {v t : Text} {b : Bool} (hcode : Mode.start.after t.head? v = .code b)
    (hbare : Bare (.code b) t.head?) :
    notes (v ++ t) = notes v ++ notes t ∧
    (t ≠ [] → Mode.start.after none (v ++ t) = Mode.start.after none t) := by
  have hread : ReadsAlike .start v none t.head? :=
    (readsAlike_of_code hcode (.inr fun c e => by cases e)).symm
  constructor
  · refine notesFrom_append hread (.inl ?_) atNote_start
    rw [hread.2, hcode]
    exact hbare
  · intro hne
    rw [Mode.after_append, Option.or_none, hcode]
    cases t with
    | nil => exact absurd rfl hne
    | cons c cs => rw [Mode.after, Mode.after, hbare.step]

theorem mem_exportTail {tail : List Cell} (htail : ExportTail tail) {t : Text}
    (ht : ∀ c ∈ tail, c ∈ cells t) {c : Cell} (hc : c ∈ tail) : c.char ≠ '\n' ∧ c.region.isLiteral =
      false ∧ ∀ q : Quote, c.masked ≠ q.char := by
  have hmem := ht c hc
  obtain ⟨gap, semicolon, rest, rfl, -, hsemicolon, hblank⟩ := htail
  have hcases : c ∈ semicolon ∨ c ∈ gap ++ rest := by
    simp only [List.mem_append] at hc ⊢
    rcases hc with h | h | h
    · exact .inr (.inl h)
    · exact .inl h
    · exact .inr (.inr h)
  rcases hcases with h | h
  · have hs : c.masked = ';' := hsemicolon c h
    obtain ⟨hregion, hchar⟩ := semicolon_code hmem hs
    refine ⟨by rw [hchar]; decide, by rw [hregion]; rfl, fun q => ?_⟩
    rw [hs]
    cases q <;> decide
  · have hb : Text.isBlank c.masked = true := hblank c h
    obtain ⟨hn, hl⟩ := region_of_blank hmem hb
    exact ⟨hn, hl, fun q => masked_of_blank hb (by cases q <;> decide)⟩

theorem modeAt_value {t : Text} {value tail : List Cell} (hcells : cells t = value ++ tail)
    (htail : ExportTail tail) (hvalue : ∀ c ∈ value, c.masked ≠ '\n')
    (hlast : ∀ c, value.getLast? = some c → Text.isBlank c.masked = false) (hne : tail ≠ []) :
    ∃ b, modeAt t value.length = .code b ∧ Bare (.code b) (writtenText tail).head? := by
  cases tail with
  | nil => exact absurd rfl hne
  | cons y ys =>
    obtain ⟨hn, hl, hquote⟩ := @mem_exportTail _ htail t (by
      intro c hc
      rw [hcells]
      exact List.mem_append_right value hc) y List.mem_cons_self
    have hcode : ∃ b, modeAt t value.length = .code b := by
      rcases List.eq_nil_or_concat value with rfl | ⟨init, x, rfl⟩
      · exact ⟨false, rfl⟩
      rw [List.concat_eq_append] at *
      have hsplit : cells t = init ++ x :: y :: ys := by
        rw [hcells, List.append_assoc, List.singleton_append]
      obtain ⟨-, hx⟩ := region_of_shown (hlast x List.getLast?_concat)
        (hvalue x (List.mem_append_right init (List.mem_singleton_self x)))
      have hcomment : x.region.isComment = true → y.region.isComment = false := by
        intro e
        rw [hx] at e
        cases e
      rw [List.length_append, List.length_singleton]
      exact modeAt_between_code hsplit hn hcomment fun _ => hl
    obtain ⟨b, hb⟩ := hcode
    refine ⟨b, hb, ?_⟩
    cases b with
    | false => exact .inl rfl
    | true =>
      refine .inr ⟨rfl, fun q e => ?_⟩
      -- Behind a backslash a quote is read as code, and the mask shows it.
      have hchar : y.char = q.char := Option.some.inj e
      obtain ⟨behind, -, hstep⟩ := read_cell hcells
      rw [hb, hchar] at hstep
      have hread : ((code true).step q.char behind.head?).1 = ⟨q.char, .code, false⟩ := by
        cases q <;> rfl
      rw [hstep] at hread
      apply hquote q
      rw [Cell.masked_of_code (congrArg Cell.region hread), hchar]

/-- Writing the comment anew behind the value keeps the notes. -/
theorem notes_exportSuffix {value tail : List Cell} (hcells : cells (writtenText (value ++ tail)) =
    value ++ tail) (htail : ExportTail tail) (hvalue : ∀ c ∈ value, c.masked ≠ '\n')
    (hsolid : ∀ c, value.getLast? = some c → Text.isBlank c.masked = false)
    (hblock : (Mode.start.after none (writtenText (value ++ tail))).inBlock = false)
    (hlast : ∀ c, tail.getLast? = some c → c.region = .lineComment → Text.isSpace c.char = false) :
    notes (writtenText value ++ exportSuffix tail) = notes (writtenText (value ++ tail)) ∧
      (Mode.start.after none (writtenText value ++ exportSuffix tail)).inBlock = false := by
  have hwritten : writtenText (value ++ tail) = writtenText value ++ writtenText tail :=
    List.map_append
  by_cases hne : tail = []
  · subst hne
    rw [List.append_nil] at hblock ⊢
    have : exportSuffix [] = [] := rfl
    rw [this, List.append_nil]
    exact ⟨rfl, hblock⟩
  · obtain ⟨b, hb, hbare⟩ := modeAt_value hcells htail hvalue hsolid hne
    rw [modeAt, drop_stretch hcells, take_stretch hcells] at hb
    obtain ⟨hnotes, hafter⟩ := notes_append_code hb hbare
    have hne' : writtenText tail ≠ [] := fun e => hne (List.map_eq_nil_iff.mp e)
    have hcells' : cells (writtenText tail) = tail := by
      have hread := cells_at hcells
      rw [drop_stretch hcells, modeAt, drop_stretch hcells, take_stretch hcells, hb,
        cellsFrom_lands (.inl hbare)] at hread
      exact hread
    rw [hwritten, hafter hne'] at hblock
    obtain ⟨hcomment, hcommentBlock⟩ := notes_exportComment htail hcells' hblock hlast
    have hquiet (ahead : Option Char) (hq : ∀ c, ahead = some c → c = ' ') :
        Mode.start.after ahead (writtenText value) = .code b := by
      rw [← hb]
      refine (readsAlike_of_code hb (.inr fun c hc => ?_)).2.symm
      rw [hq c hc]
      exact ⟨by decide, by decide⟩
    rw [hwritten, hnotes, ← hcomment, exportSuffix]
    split
    case isTrue hempty =>
      rw [List.isEmpty_iff.mp hempty, List.append_nil, hquiet none fun c e => by cases e]
      exact ⟨(List.append_nil _).symm, rfl⟩
    case isFalse =>
      have hspace : Bare (.code b) (' ' :: ' ' :: exportComment tail).head? :=
        Tame.bare (by decide) b
      have hmode := hquiet (' ' :: ' ' :: exportComment tail).head? fun c e =>
        (Option.some.inj e).symm
      obtain ⟨hnotes', hafter'⟩ := notes_append_code hmode hspace
      obtain ⟨hlead, hleadAfter⟩ := @notes_tame_append [' ', ' '] (by decide) (exportComment tail)
      rw [hnotes', hafter' (List.cons_ne_nil _ _)]
      exact ⟨congrArg _ hlead, hleadAfter ▸ hcommentBlock⟩

def exportedVariables (t : Text) :
    List (Match Cell (ExportedVariable Cell)) := exportedVariable.findAll (cells t)

def exportLead (m : Match Cell (ExportedVariable Cell)) : List Cell :=
  m.glyphs.take (m.glyphs.length - (m.value.value ++ m.value.tail).length)

/-- A character that may stand before the value of an exported variable. -/
def inExportHead (c : Char) : Bool := Text.isBlank c || Text.isWordOrDot c || c == '='

theorem exportHead_shown {head kind name : List Cell} (h : ExportHead head kind name) :
    ∀ c ∈ head, inExportHead c.masked = true := by
  obtain ⟨keyword, blanks₁, blanks₂, blanks₃, equals, blanks₄, rfl, hkeyword, hequals, -, -,
      hblank⟩ := h.parts
  obtain ⟨w, hw, hkind⟩ := h.kind
  simp only [List.forall_mem_append] at hblank
  obtain ⟨h₁, h₂, h₃, h₄⟩ := hblank
  have hblanks {gs : List Cell} (hgs : ∀ g ∈ gs, Text.isBlank (Glyph.seen g) = true) :
      ∀ c ∈ gs, inExportHead c.masked = true := by
    intro c hc
    have hb : Text.isBlank c.masked = true := hgs c hc
    rw [inExportHead, hb]
    rfl
  have hword {gs : List Cell} (hgs : ∀ d ∈ seenText gs, Text.isWordOrDot d = true) :
      ∀ c ∈ gs, inExportHead c.masked = true := by
    intro c hc
    have hd : Text.isWordOrDot c.masked = true := hgs _ (List.mem_map_of_mem hc)
    rw [inExportHead, hd, Bool.or_true, Bool.true_or]
  have hequals' : inExportHead equals.masked = true := by
    have : equals.masked = '=' := hequals
    rw [this]
    decide
  have hkinds : ∀ w ∈ exportKinds, ∀ d ∈ w.toList, Text.isWordOrDot d = true := by decide
  have hnames : ∀ d ∈ seenText name, Text.isWordOrDot d = true := by
    intro d hd
    obtain ⟨g, hg, rfl⟩ := List.mem_map.mp hd
    rw [Text.isWordOrDot, h.name.2 g hg]
    rfl
  simp only [List.forall_mem_append, List.forall_mem_cons]
  refine ⟨hword ?_, hblanks h₁, hword ?_, hblanks h₂, hword hnames, hblanks h₃,
    hequals', hblanks h₄⟩
  · rw [hkeyword]
    decide
  · rw [hkind]
    exact hkinds w hw

theorem exportLead_shown {indent head kind name : List Cell}
    (hindent : ∀ g ∈ indent, Text.isBlank (Glyph.seen g) = true)
    (hhead : ExportHead head kind name) : ∀ c ∈ indent ++ head, inExportHead c.masked = true := by
  refine List.forall_mem_append.mpr ⟨fun c hc => ?_, exportHead_shown hhead⟩
  have hb : Text.isBlank c.masked = true := hindent c hc
  rw [inExportHead, hb]
  rfl

structure ExportLine (t : Text) (m : Match Cell (ExportedVariable Cell)) (a rest : List Cell) :
    Prop where
  cells_eq : cells t = a ++ (exportLead m ++ ((m.value.value ++ m.value.tail) ++ rest))
  glyphs : m.glyphs = exportLead m ++ (m.value.value ++ m.value.tail)
  start : m.start = a.length
  before : ∀ c, a.getLast? = some c → c.masked = '\n'
  behind : ∀ c, rest.head? = some c → c.masked = '\n'
  lead : exportLead m ≠ [] ∧ ∀ c ∈ exportLead m, inExportHead c.masked = true
  indent : ∀ c ∈ m.value.indent, c ∈ exportLead m
  name : m.value.name ≠ [] ∧ ∀ c ∈ m.value.name, c ∈ exportLead m
  value : ∀ c ∈ m.value.value, c.masked ≠ '\n'
  value_last : ∀ c, m.value.value.getLast? = some c → Text.isBlank c.masked = false
  tail : ExportTail m.value.tail

theorem advances_exportedVariable :
    (exportedVariable : Pattern Cell (ExportedVariable Cell)).Advances := by
  intro before gs v rest h
  obtain ⟨-, -, -, -, -, -, -, head, hhead, e⟩ := exportedVariable_eq_some h
  refine ⟨v.indent ++ (head ++ (v.value ++ v.tail)), ?_, ?_⟩
  · obtain ⟨keyword, blanks₁, blanks₂, blanks₃, equals, blanks₄, rfl, -⟩ := hhead.parts
    simp
  · rw [e]
    simp only [List.append_assoc]

theorem exportLead_of_mem {t : Text} {m : Match Cell (ExportedVariable Cell)}
    (hm : m ∈ exportedVariables t) :
    ∃ head, ExportHead head m.value.kind m.value.name ∧ exportLead m = m.value.indent ++ head ∧
      m.glyphs = (m.value.indent ++ head) ++ (m.value.value ++ m.value.tail) := by
  obtain ⟨a, rest, -, -, happ⟩ := Pattern.applies_of_mem_findAll advances_exportedVariable hm
  obtain ⟨-, -, -, -, -, -, -, head, hhead, e⟩ := exportedVariable_eq_some happ
  have hglyphs : m.glyphs = (m.value.indent ++ head) ++ (m.value.value ++ m.value.tail) := by
    refine (List.append_left_inj rest).mp ?_
    rw [e]
    simp only [List.append_assoc]
  refine ⟨head, hhead, ?_, hglyphs⟩
  rw [exportLead, hglyphs, List.length_append, Nat.add_sub_cancel, List.take_left' rfl]

theorem exportLead_keyword {t : Text} {m : Match Cell (ExportedVariable Cell)}
    (hm : m ∈ exportedVariables t) :
    ∃ k more, exportLead m = m.value.indent ++ k :: more ∧ k.masked = 'e' := by
  obtain ⟨head, hhead, hlead, -⟩ := exportLead_of_mem hm
  obtain ⟨keyword, blanks₁, blanks₂, blanks₃, equals, blanks₄, rfl, hkeyword, -⟩ := hhead.parts
  cases keyword with
  | nil => cases hkeyword
  | cons k more => exact ⟨k, _, hlead, (List.cons.inj hkeyword).1⟩

theorem exportLine_of_mem {t : Text} {m : Match Cell (ExportedVariable Cell)}
    (hm : m ∈ exportedVariables t) :
    ∃ a rest, ExportLine t m a rest := by
  obtain ⟨a, rest, hcells, hstart, happ⟩ :=
    Pattern.applies_of_mem_findAll advances_exportedVariable hm
  obtain ⟨hbefore, hbehind, hindent, hvalue, -, hlast, htail, -⟩ := exportedVariable_eq_some happ
  obtain ⟨head, hhead, hlead, hglyphs⟩ := exportLead_of_mem hm
  have hshown := exportLead_shown hindent hhead
  have hparts := hhead.parts
  obtain ⟨keyword, blanks₁, blanks₂, blanks₃, equals, blanks₄, hsplit, -⟩ := hparts
  rw [← hlead] at hglyphs
  refine ⟨a, rest, ⟨?_, hglyphs, hstart, ?_, ?_, ?_, ?_, ⟨hhead.name.1, ?_⟩, fun c hc =>
    (hvalue c hc).2, hlast, htail⟩⟩
  · rw [hcells, hglyphs, List.append_assoc]
  · intro c hc
    rw [Pattern.passed_none, hc] at hbefore
    rcases hbefore with h | h
    · cases h
    · exact Option.some.inj h
  · intro c hc
    rcases hbehind with rfl | ⟨g, gs, rfl, hg⟩
    · cases hc
    · cases hc
      exact hg
  · rw [hlead]
    refine ⟨?_, hshown⟩
    rw [hsplit]
    simp
  · intro c hc
    rw [hlead]
    exact List.mem_append_left head hc
  · intro c hc
    rw [hlead, hsplit]
    simp [hc]

/-- No comment stands before the value of an exported variable, none goes on behind its line, and a
comment up to the end of the line does not end in white space. -/
def ExportClear (t : Text) (m : Match Cell (ExportedVariable Cell)) : Prop :=
  (∀ c ∈ exportLead m, c.isCode = true) ∧ (modeAt t m.stop).inBlock = false ∧
    ∀ c ∈ m.value.tail.getLast?, c.region = .lineComment → Text.isSpace c.char = false

instance (t : Text) (m : Match Cell (ExportedVariable Cell)) : Decidable (ExportClear t m) :=
  inferInstanceAs (Decidable (_ ∧ _ ∧ _))

theorem tame_of_inExportHead {c : Char} (h : inExportHead c = true) : Tame c := by
  rw [inExportHead, Bool.or_eq_true, Bool.or_eq_true, beq_iff_eq] at h
  rcases h with (h | h) | rfl
  · exact tame_of_white (Text.isSpace_of_isBlank h)
  · exact (tame_of_isWordOrDot h).1
  · decide

namespace ExportLine

variable {t : Text} {m : Match Cell (ExportedVariable Cell)} {a rest : List Cell}

theorem stop (h : ExportLine t m a rest) :
    m.stop = (a ++ exportLead m).length + (m.value.value ++ m.value.tail).length := by
  rw [Match.stop, h.start, h.glyphs]
  simp only [List.length_append, Nat.add_assoc]

theorem cells_split (h : ExportLine t m a rest) :
    cells t = (a ++ exportLead m) ++ ((m.value.value ++ m.value.tail) ++ rest) := by
  rw [h.cells_eq, List.append_assoc a]

theorem drop_stop (h : ExportLine t m a rest) : t.drop m.stop = writtenText rest := by
  have hcells : cells t = ((a ++ exportLead m) ++ (m.value.value ++ m.value.tail)) ++ rest := by
    rw [h.cells_split]
    simp only [List.append_assoc]
  rw [h.stop, ← List.length_append, drop_stretch hcells]

theorem slice (h : ExportLine t m a rest) :
    Text.slice t m.start m.stop = writtenText (exportLead m) ++
      writtenText (m.value.value ++ m.value.tail) := by
  have hcells : cells t = a ++ ((exportLead m ++ (m.value.value ++ m.value.tail)) ++ rest) := by
    rw [h.cells_eq]
    simp only [List.append_assoc]
  have hstop : m.stop = a.length + (exportLead m ++ (m.value.value ++ m.value.tail)).length := by
    rw [Match.stop, h.start, h.glyphs]
  rw [hstop, h.start, slice_stretch hcells, writtenText, List.map_append]
  rfl

theorem head?_behind (h : ExportLine t m a rest) :
    (t.drop m.stop).head? = none ∨ (t.drop m.stop).head? = some '\n' := by
  rw [h.drop_stop]
  cases rest with
  | nil => exact .inl rfl
  | cons c cs => exact .inr (congrArg some (char_of_newline (h.behind c rfl)))

theorem tame (h : ExportLine t m a rest) (hcode : ∀ c ∈ exportLead m, c.isCode = true) :
    ∀ c ∈ exportLead m, Tame c.char := by
  intro c hc
  have hregion : c.region = .code := beq_iff_eq.mp (hcode c hc)
  rw [← Cell.masked_of_code hregion]
  exact tame_of_inExportHead (h.lead.2 c hc)

theorem modeAt_start (h : ExportLine t m a rest) (hcode : ∀ c ∈ exportLead m, c.isCode = true) :
    modeAt t m.start = .start := by
  have hcells := h.cells_eq
  have htame := h.tame hcode
  cases hl : exportLead m with
  | nil => exact absurd hl h.lead.1
  | cons c cs =>
    rw [hl] at hcells htame hcode
    have hregion : c.region = .code := beq_iff_eq.mp (hcode c List.mem_cons_self)
    have hn : c.char ≠ '\n' := by
      intro e
      have hshown := h.lead.2 c (hl ▸ List.mem_cons_self)
      rw [Cell.masked_of_code hregion, e] at hshown
      exact absurd hshown (by decide)
    obtain ⟨b, hb⟩ := modeAt_before_code hcells hregion hn
    rw [h.start]
    refine modeAt_after_shown hcells (fun x hx => ?_) hb
    rw [h.before x hx]
    decide

theorem modeAt_value (h : ExportLine t m a rest) (hcode : ∀ c ∈ exportLead m, c.isCode = true) :
    modeAt t (a ++ exportLead m).length = .start := by
  have hstart := h.modeAt_start hcode
  rw [h.start] at hstart
  rw [List.length_append, modeAt_slice t (Nat.le_add_right a.length _), hstart,
    slice_stretch h.cells_eq]
  exact after_tame (List.forall_mem_map.mpr (h.tame hcode)) _

theorem lands (h : ExportLine t m a rest) (hclear : ExportClear t m) :
    Lands (modeAt t m.stop) (t.drop m.stop).head? :=
  .inr ⟨settled_modeAt h.head?_behind, hclear.2.1, h.head?_behind⟩

theorem cells_value (h : ExportLine t m a rest) (hclear : ExportClear t m) :
    cells (writtenText (m.value.value ++ m.value.tail)) = m.value.value ++ m.value.tail := by
  have hlands := h.lands hclear
  rw [h.drop_stop, h.stop] at hlands
  exact cells_stretch h.cells_split (h.modeAt_value hclear.1) hlands

theorem inBlock_value (h : ExportLine t m a rest) (hclear : ExportClear t m) :
    (Mode.start.after none (writtenText (m.value.value ++ m.value.tail))).inBlock = false := by
  have hblock := hclear.2.1
  have hhead := h.head?_behind
  rw [h.stop] at hblock hhead
  rw [modeAt_slice t (Nat.le_add_right _ _), h.modeAt_value hclear.1,
    slice_stretch h.cells_split] at hblock
  rcases hhead with e | e
  · rwa [e] at hblock
  · rwa [e, after_newline_ahead] at hblock

end ExportLine

def newLead (v : ScriptVersion) (e : ExportedVariable Cell) : Text :=
  writtenText e.indent ++
    ((exportKeyword v e.kind).toList ++ ' ' :: (writtenText e.name ++ " = ".toList))

def newExport (e : ExportedVariable Cell) : Text :=
  writtenText e.indent ++ ("export ".toList ++ writtenText e.name)

theorem exportReplacement_eq (v : ScriptVersion) (e : ExportedVariable Cell) :
    exportReplacement v e = newLead v e ++ (writtenText e.value ++ exportSuffix e.tail) ++
      '\n' :: newExport e := by
  simp only [exportReplacement, newLead, newExport, exportSuffix, List.append_assoc,
    List.cons_append]

theorem exportKeyword_tame (v : ScriptVersion) (kind : List Cell) :
    ∀ c ∈ (exportKeyword v kind).toList, Tame c := by
  rw [exportKeyword]
  split <;> decide

def exportEdit (v : ScriptVersion) (m : Match Cell (ExportedVariable Cell)) : Edit :=
  ⟨m.start, m.stop, exportReplacement v m.value⟩

theorem notes_append_line {x y : Text} (hx : (Mode.start.after none x).inBlock = false)
    (hy : ∀ c ∈ y, Tame c) :
    notes (x ++ '\n' :: y) = notes x ∧ Mode.start.after none (x ++ '\n' :: y) = .start := by
  have hsettled := @settled_after .start rfl x
  have hlands : Lands (Mode.start.after none x) ('\n' :: y).head? := .inr ⟨hsettled, hx, .inr rfl⟩
  have htame : ∀ c ∈ '\n' :: y, Tame c := List.forall_mem_cons.mpr ⟨by decide, hy⟩
  constructor
  · rw [notes, notesFrom_append (readsAlike_newline .start x).symm hlands atNote_start, ← notes,
      notes_tame htame, List.append_nil]
  · rw [Mode.after_append, List.head?_cons, Option.some_or, after_newline_ahead, Mode.after,
      hlands.step, ← Mode.after]
    exact after_tame htame none

namespace ExportLine

variable {t : Text} {m : Match Cell (ExportedVariable Cell)} {a rest : List Cell}

theorem tame_new (h : ExportLine t m a rest) (hcode : ∀ c ∈ exportLead m, c.isCode = true)
    (v : ScriptVersion) :
    (∀ c ∈ newLead v m.value, Tame c) ∧ ∀ c ∈ newExport m.value, Tame c := by
  have hindent : ∀ c ∈ writtenText m.value.indent, Tame c :=
    List.forall_mem_map.mpr fun c hc => h.tame hcode c (h.indent c hc)
  have hname : ∀ c ∈ writtenText m.value.name, Tame c :=
    List.forall_mem_map.mpr fun c hc => h.tame hcode c (h.name.2 c hc)
  simp only [newLead, newExport, List.forall_mem_append, List.forall_mem_cons]
  exact ⟨⟨hindent, exportKeyword_tame v _, by decide, hname, by decide⟩, hindent, by decide, hname⟩

/-- The new lines have the notes of the line they replace, and end in code. -/
theorem notes_replacement (h : ExportLine t m a rest) (hclear : ExportClear t m)
    (v : ScriptVersion) :
    notes (exportReplacement v m.value) = notes (Text.slice t m.start m.stop) ∧
      Mode.start.after none (exportReplacement v m.value) = .start := by
  obtain ⟨hlead, hexport⟩ := h.tame_new hclear.1 v
  obtain ⟨hnotes, hblock⟩ := notes_exportSuffix (h.cells_value hclear) h.tail h.value h.value_last
    (h.inBlock_value hclear)
    hclear.2.2
  obtain ⟨hnew, hnewAfter⟩ :=
    notes_tame_append hlead (writtenText m.value.value ++ exportSuffix m.value.tail)
  have hold := notes_tame_append (List.forall_mem_map.mpr (h.tame hclear.1))
    (writtenText (m.value.value ++ m.value.tail))
  obtain ⟨hline, hend⟩ := notes_append_line (by rw [hnewAfter]; exact hblock) hexport
  rw [exportReplacement_eq, hline, hend, hnew, hnotes, h.slice]
  exact ⟨hold.1.symm, rfl⟩

theorem sound (h : ExportLine t m a rest) (hclear : ExportClear t m) (v : ScriptVersion) :
    Edit.Sound t (exportEdit v m) := by
  have hstart := h.modeAt_start hclear.1
  have hafter := (h.notes_replacement hclear v).2
  refine ⟨.inl hstart, .inl hstart, .inl ?_, h.lands hclear, ?_, .inl (.inl hafter)⟩
  · -- The line begins behind a newline.
    rw [exportEdit, h.start, take_stretch h.cells_eq, writtenText, List.getLast?_map]
    intro e
    obtain ⟨c, hc, hchar⟩ := Option.map_eq_some_iff.mp e
    rw [char_of_newline (h.before c hc)] at hchar
    exact absurd hchar (by decide)
  · rw [exportEdit]
    rcases h.head?_behind with e | e
    · rw [e]
      exact ⟨rfl, rfl⟩
    · rw [e]
      exact (readsAlike_newline .start _).symm

end ExportLine

theorem exportedVariable_apart {before : Option Char} {gs rest : List Cell}
    {v : ExportedVariable Cell} (h : exportedVariable before gs = some (v, rest))
    (before' : Option Char) : exportedVariable before' rest = none := by
  obtain ⟨-, hrest, -⟩ := exportedVariable_eq_some h
  refine Option.eq_none_iff_forall_ne_some.mpr fun r h' => ?_
  obtain ⟨v', rest'⟩ := r
  obtain ⟨-, -, hindent, -, -, -, -, head, hhead, e⟩ := exportedVariable_eq_some h'
  have hshown := exportLead_shown hindent hhead
  obtain ⟨keyword, blanks₁, blanks₂, blanks₃, equals, blanks₄, hsplit, -⟩ := hhead.parts
  rw [← List.append_assoc] at e
  cases hlead : v'.indent ++ head with
  | nil =>
    rw [hsplit] at hlead
    simp at hlead
  | cons g gs' =>
    rw [hlead] at e hshown
    have hg := hshown g List.mem_cons_self
    rcases hrest with rfl | ⟨n, ns, rfl, hn⟩
    · cases e
    · obtain rfl : n = g := (List.cons.inj e).1
      have hn' : n.masked = '\n' := hn
      rw [hn'] at hg
      exact absurd hg (by decide)

theorem ordered_exportEdits (v : ScriptVersion) (t : Text) :
    Edit.Ordered t.length 0 ((exportedVariables t).map (exportEdit v)) := by
  have hordered := ((Pattern.segmented_segments advances_exportedVariable (cells t)).ordered
    (fun before gs v rest e => exportedVariable_apart e) 0 fun m => exportReplacement v m.value).1
  rw [Nat.zero_add, cells, cellsFrom_length, ← cells] at hordered
  exact hordered

theorem splitExports_text (v : ScriptVersion) (t : Text) :
    (splitExports v t).text = Edit.splice t 0 ((exportedVariables t).map (exportEdit v)) :=
  Edit.applyAll_eq_splice t (ordered_exportEdits v t)

def ExportsClear (t : Text) : Prop := ∀ m ∈ exportedVariables t, ExportClear t m

instance (t : Text) :
    Decidable (ExportsClear t) := inferInstanceAs (Decidable (∀ m ∈ exportedVariables t, _))

theorem notes_splitExports {t : Text} (h : ExportsClear t) (v : ScriptVersion) :
    notes (splitExports v t).text = notes t := by
  have hrev := Edit.revises_splice (ordered_exportEdits v t) fun e he => by
    obtain ⟨m, hm, rfl⟩ := List.mem_map.mp he
    obtain ⟨a, rest, hline⟩ := exportLine_of_mem hm
    exact hline.sound (h m hm) v
  rw [splitExports_text]
  refine hrev.notesFrom_eq (fun s hs => ?_) atNote_start
  obtain ⟨e, he, rfl⟩ := List.mem_map.mp hs
  obtain ⟨m, hm, rfl⟩ := List.mem_map.mp he
  obtain ⟨a, rest, hline⟩ := exportLine_of_mem hm
  exact (hline.notes_replacement (h m hm) v).1

end PineTools.Repair
