import PineTools.Proofs.Construct.Calls
import PineTools.Proofs.Scan.Stretches
import PineTools.Repair.Basic

/-! Commas that are put in. Each replaces a run of blanks on the mask between two tokens. The run
begins and ends in code, so the rest of the script is read as before; but the blanks may be
comments, and these are lost. -/
namespace PineTools.Repair

open Mode

theorem not_blank_of (p : Char → Bool) (hp : ∀ d ∈ [' ', '\t', '\n', '\\'], p d = false) {c : Char}
    (h : p c = true) :
    Text.isBlank c = false ∧ c ≠ '\n' ∧ c ≠ '\\' := by
  refine ⟨Text.isBlank_eq_false p (hp _ (by decide)) (hp _ (by decide)) h, ?_, ?_⟩
  · rintro rfl
    exact absurd h (Bool.eq_false_iff.mp (hp _ (by decide)))
  · rintro rfl
    exact absurd h (Bool.eq_false_iff.mp (hp _ (by decide)))

theorem isBlank_of_isDecimal {c : Char} (h : Text.isDecimal c = true) :
    Text.isBlank c = false ∧ c ≠ '\n' ∧ c ≠ '\\' :=
  not_blank_of Text.isDecimal (by decide) h

theorem advances_inputWithoutComma :
    (inputWithoutComma : Pattern Cell (InputWithoutComma Cell)).Advances := by
  intro before gs v rest h
  obtain ⟨e, ⟨init, x, hnumber, -⟩, -⟩ := inputWithoutComma_eq_some h
  refine ⟨v.before ++ (v.number ++ (v.gap ++ v.title)), ?_, ?_⟩
  · rw [hnumber]
    simp
  · rw [e]
    simp only [List.append_assoc]

def commalessInputs (t : Text) :
    List (Match Cell (InputWithoutComma Cell)) := inputWithoutComma.findAll (cells t)

def inputEdit (m : Match Cell (InputWithoutComma Cell)) : Edit :=
  ⟨m.start + m.value.before.length + m.value.number.length,
    m.start + m.value.before.length + m.value.number.length + m.value.gap.length, separator⟩

theorem gap_of_input {t : Text} {m : Match Cell (InputWithoutComma Cell)}
    (hm : m ∈ commalessInputs t) :
    ∃ a rest x y, Gap t a m.value.gap rest x y ∧ (inputEdit m).start = a.length + 1 ∧
    m.start ≤ (inputEdit m).start ∧
      (inputEdit m).stop < m.stop ∧ Text.isDecimal x.masked = true := by
  obtain ⟨a, rest, hcells, hstart, happ⟩ :=
    Pattern.applies_of_mem_findAll advances_inputWithoutComma hm
  obtain ⟨e, ⟨init, x, hnumber, hx⟩, hne, hblank, y, ys, q, htitle, hy⟩ :=
    inputWithoutComma_eq_some happ
  have hglyphs : m.glyphs = m.value.before ++
      (m.value.number ++ (m.value.gap ++ m.value.title)) := by
    refine (List.append_left_inj rest).mp ?_
    rw [e]
    simp only [List.append_assoc]
  refine ⟨a ++ (m.value.before ++ init), ys ++ rest, x, y,
    ⟨?_, hne, hblank, isBlank_of_isDecimal hx, ?_⟩, ?_, ?_, ?_, hx⟩
  · rw [hcells, e, hnumber, htitle]
    simp only [List.append_assoc, List.cons_append, List.nil_append]
  · have hy' : y.masked = q.char := hy
    rw [hy']
    cases q <;> exact ⟨by decide, by decide⟩
  · simp only [inputEdit, hstart, hnumber, List.length_append, List.length_singleton]
    omega
  · simp only [inputEdit]
    omega
  · simp only [inputEdit, Match.stop, hglyphs, htitle, List.length_append, List.length_cons]
    omega

theorem sound_inputEdit {t : Text} {m : Match Cell (InputWithoutComma Cell)}
    (hm : m ∈ commalessInputs t) :
    Edit.Sound t (inputEdit m) ∧ Edit.swap t (inputEdit m) = ⟨writtenText m.value.gap, separator⟩ ∧
      (inputEdit m).stop ≤ t.length := by
  obtain ⟨a, rest, x, y, hgap, hstart, -, -⟩ := gap_of_input hm
  have hedit : inputEdit m = ⟨a.length + 1, a.length + 1 + m.value.gap.length, separator⟩ := by
    rw [← hstart]
    rfl
  rw [hedit]
  refine ⟨hgap.sound, congrArg (Swap.mk · separator) hgap.slice, ?_⟩
  have hlen := congrArg List.length hgap.cells_eq
  rw [cells, cellsFrom_length] at hlen
  simp only [List.length_append, List.length_cons] at hlen
  dsimp only
  omega

theorem ordered_inputEdits (t : Text) :
    Edit.Ordered t.length 0 ((commalessInputs t).map inputEdit) := by
  rw [← List.filterMap_eq_map]
  refine @Pattern.Successive.ordered _ _ 0 _ 0 _
    (Pattern.successive_findAll advances_inputWithoutComma _) _ ?_
  intro m hm e he
  cases he
  obtain ⟨a, rest, x, y, -, -, hstart, hstop, -⟩ := gap_of_input hm
  exact ⟨hstart, Nat.le_add_right _ _, hstop, (sound_inputEdit hm).2.2⟩

theorem separateInputs_text (t : Text) :
    (separateInputs t).text = Edit.splice t 0 ((commalessInputs t).map inputEdit) :=
  Edit.applyAll_eq_splice t (ordered_inputEdits t)

theorem separateInputs_revises (t : Text) : Revises .start t (separateInputs t).text
    ((commalessInputs t).map fun m => ⟨writtenText m.value.gap, separator⟩) := by
  have hrev := Edit.revises_splice (ordered_inputEdits t) fun e he => by
    obtain ⟨m, hm, rfl⟩ := List.mem_map.mp he
    exact (sound_inputEdit hm).1
  have hswaps : ((commalessInputs t).map inputEdit).map (Edit.swap t) =
      (commalessInputs t).map fun m => ⟨writtenText m.value.gap, separator⟩ := by
    rw [List.map_map]
    exact List.map_congr_left fun m hm => (sound_inputEdit hm).2.1
  rw [separateInputs_text, ← hswaps]
  exact hrev

theorem isBlank_of_isTokenEdge {c : Char} (h : isTokenEdge c = true) :
    Text.isBlank c = false ∧ c ≠ '\n' ∧ c ≠ '\\' :=
  not_blank_of isTokenEdge (by decide) h

theorem advances_tokenGap : (tokenGap : Pattern Char Unit).Advances := by
  intro before gs v rest h
  obtain ⟨x, gap, y, rest', e, -⟩ := tokenGap_eq_some h
  exact ⟨x :: gap, List.cons_ne_nil x gap, e⟩

def tokenGaps (args : Text) : List (Match Char Unit) := tokenGap.findAll (mask args)

theorem gap_of_tokenGap {args : Text} {m : Match Char Unit} (hm : m ∈ tokenGaps args) :
    ∃ a gap rest x y, Gap args a gap rest x y ∧ m.start = a.length ∧
    m.stop = a.length + 1 + gap.length := by
  obtain ⟨pre, behind, hmask, hstart, happ⟩ := Pattern.applies_of_mem_findAll advances_tokenGap hm
  obtain ⟨x', gap', y', ys', e, rfl, hx, hne, hblank, hy⟩ := tokenGap_eq_some happ
  have hglyphs : m.glyphs = x' :: gap' := (List.append_left_inj (y' :: ys')).mp e
  rw [e, mask] at hmask
  obtain ⟨a, l₁, hcells, rfl, hl₁⟩ := List.map_eq_append_iff.mp hmask
  obtain ⟨x, l₂, rfl, rfl, hl₂⟩ := List.map_eq_cons_iff.mp hl₁
  obtain ⟨gap, l₃, rfl, rfl, hl₃⟩ := List.map_eq_append_iff.mp hl₂
  obtain ⟨y, rest, rfl, rfl, -⟩ := List.map_eq_cons_iff.mp hl₃
  refine ⟨a, gap, rest, x, y, ⟨hcells, ?_, fun c hc => ?_, isBlank_of_isTokenEdge hx, ?_⟩, ?_, ?_⟩
  · rintro rfl
    exact hne rfl
  · exact hblank _ (List.mem_map_of_mem hc)
  · obtain ⟨h₁, h₂, -⟩ := isBlank_of_isTokenEdge hy
    exact ⟨h₁, h₂⟩
  · rw [hstart, List.length_map]
  · rw [Match.stop, hstart, hglyphs, List.length_cons, List.length_map, List.length_map]
    omega

def gapEdit (m : Match Char Unit) : Edit := ⟨m.start + 1, m.stop, separator⟩

theorem fillGaps_eq (args : Text) (last : Nat) (ms : List (Match Char Unit)) :
    fillGaps args last (ms.map fun m => (m.start + 1, m.stop)) =
      Edit.splice args last (ms.map gapEdit) := by
  induction ms generalizing last with
  | nil => rfl
  | cons m ms ih =>
    rw [List.map_cons, List.map_cons, fillGaps, Edit.splice, ih, List.append_assoc]
    rfl

theorem ordered_gapEdits (args : Text) :
    Edit.Ordered args.length 0 ((tokenGaps args).map gapEdit) := by
  rw [← List.filterMap_eq_map]
  have h := @Pattern.Successive.ordered _ _ 0 args.length 1 _
    (Pattern.successive_findAll advances_tokenGap (mask args))
    (some ∘ gapEdit) fun m hm e he => by
      cases he
      obtain ⟨a, gap, rest, x, y, hgap, hstart, hstop⟩ := gap_of_tokenGap hm
      have hlen := congrArg List.length hgap.cells_eq
      rw [cells, cellsFrom_length] at hlen
      simp only [List.length_append, List.length_cons] at hlen
      simp only [gapEdit]
      omega
  exact h.weaken (Nat.zero_le _)

theorem sound_gapEdit {args : Text} {m : Match Char Unit} (hm : m ∈ tokenGaps args) :
    Edit.Sound args (gapEdit m) ∧
    (Mode.start.after none (Text.slice args (m.start + 1) m.stop)).inCode = true ∧
      (notes (Text.slice args (m.start + 1) m.stop) = [] ↔
        ∀ c ∈ Text.slice (cells args) (m.start + 1) m.stop, c.isCode = true) := by
  obtain ⟨a, gap, rest, x, y, hgap, hstart, hstop⟩ := gap_of_tokenGap hm
  have hslice : Text.slice (cells args) (a.length + 1) (a.length + 1 + gap.length) = gap := by
    have hlen : (a ++ [x]).length = a.length + 1 := by
      rw [List.length_append, List.length_singleton]
    rw [hgap.cells_split, Text.slice, List.drop_take, List.drop_left' hlen, Nat.add_sub_cancel_left,
      List.take_left' rfl]
  rw [gapEdit, hstart, hstop, hgap.slice, hslice]
  refine ⟨hgap.sound, ?_, hgap.notes_eq_nil_iff⟩
  rw [hgap.after_gap]
  rfl

/-- The swaps that put commas into an argument list. -/
def gapSwaps (args : Text) : List Swap := (tokenGaps args).map fun m =>
    ⟨Text.slice args (m.start + 1) m.stop, separator⟩

theorem fillGaps_revises (args : Text) :
    Revises .start args (fillGaps args 0 ((tokenGaps args).map fun m => (m.start + 1, m.stop)))
    (gapSwaps args) := by
  have hrev := Edit.revises_splice (ordered_gapEdits args) fun e he => by
    obtain ⟨m, hm, rfl⟩ := List.mem_map.mp he
    exact (sound_gapEdit hm).1
  rw [List.map_map] at hrev
  rw [fillGaps_eq]
  exact hrev

theorem mem_splice {t : Text} {offset : Nat} {es : List Edit} {c : Char}
    (h : c ∈ Edit.splice t offset es) :
    c ∈ t ∨ ∃ e ∈ es, c ∈ e.replacement := by
  induction es generalizing offset with
  | nil => exact .inl (List.mem_of_mem_drop h)
  | cons e es ih =>
    rw [Edit.splice, List.mem_append, List.mem_append] at h
    rcases h with (h | h) | h
    · exact .inl (List.mem_of_mem_take (List.mem_of_mem_drop h))
    · exact .inr ⟨e, List.mem_cons_self, h⟩
    · rcases ih h with h | ⟨d, hd, h⟩
      · exact .inl h
      · exact .inr ⟨d, List.mem_cons_of_mem e hd, h⟩

theorem oneLine_fillGaps {args : Text} (h : Text.OneLine args) :
    Text.OneLine (fillGaps args 0 ((tokenGaps args).map fun m => (m.start + 1, m.stop))) := by
  intro k
  rw [fillGaps_eq] at k
  rcases mem_splice k with k | ⟨e, he, k⟩
  · exact h k
  · obtain ⟨m, -, rfl⟩ := List.mem_map.mp he
    have hsep : '\n' ∉ separator := by decide
    exact hsep k

/-- The number of notes in the gaps of an argument list. -/
def gapNotes (args : Text) : Nat := Swap.total (fun s => (notes s.old).length) (gapSwaps args)

theorem gapNotes_eq_zero_iff (args : Text) : gapNotes args = 0 ↔
    ∀ m ∈ tokenGaps args, ∀ c ∈ Text.slice (cells args) (m.start + 1) m.stop, c.isCode = true := by
  rw [gapNotes, Swap.total_eq_zero_iff, gapSwaps, List.forall_mem_map]
  refine forall₂_congr fun m hm => ?_
  rw [List.length_eq_zero_iff]
  exact (sound_gapEdit hm).2.2

theorem insertCommas_notes {args : Text} (hone : Text.OneLine args)
    (hcode : (Mode.start.after none args).inCode = true) :
    (Mode.start.after none (insertCommas args (mask args))).inCode = true ∧
      (notes (insertCommas args (mask args))).length + gapNotes args = (notes args).length ∧
      (gapNotes args = 0 → notes (insertCommas args (mask args)) = notes args) := by
  have hrev := fillGaps_revises args
  have hend : (Mode.start.after none
      (fillGaps args 0 ((tokenGaps args).map fun m => (m.start + 1, m.stop)))).inCode = true := by
    rw [hrev.inCode_after, hcode]
    intro s hs
    obtain ⟨m, hm, rfl⟩ := List.mem_map.mp hs
    exact ⟨(sound_gapEdit hm).2.1, rfl⟩
  obtain ⟨hnotes, hend'⟩ := notes_strip (oneLine_fillGaps hone) hend
  have hinsert : insertCommas args (mask args) =
      Text.strip (fillGaps args 0 ((tokenGaps args).map fun m => (m.start + 1, m.stop))) := rfl
  obtain ⟨hlength, -, hkept⟩ := @Revises.notes_lost _ _ _ hrev (fun s => (notes s.old).length)
    fun s hs => by
    obtain ⟨m, -, rfl⟩ := List.mem_map.mp hs
    rw [notes_separator, List.length_nil, Nat.zero_add]
    exact ⟨rfl, fun e => (List.eq_nil_of_length_eq_zero e).symm⟩
  rw [hinsert, hnotes]
  refine ⟨hend', hlength, fun hzero => hkept fun s hs => ?_⟩
  exact Swap.total_eq_zero_iff.mp hzero s hs

theorem advances_simpleCall : (simpleCall : Pattern Char (SimpleCall Char)).Advances := by
  intro before gs v rest h
  obtain ⟨x, y, e, hne, -⟩ := simpleCall_eq_some h
  refine ⟨v.name ++ (v.gap ++ x :: (v.args ++ [y])), fun k => hne (List.append_eq_nil_iff.mp k).1,
    ?_⟩
  rw [e]
  simp only [List.append_assoc, List.cons_append, List.nil_append]

/-- The argument list of a call that has lost its commas, between its parentheses. -/
structure CallArguments (t : Text) (call : MissingCommas) (a args rest : List Cell) (x y : Cell) :
    Prop where
  cells_eq : cells t = a ++ x :: (args ++ y :: rest)
  opens : x.masked = '('
  closes : y.masked = ')'
  line : ∀ g ∈ args, g.masked ≠ '\n'
  start : call.argsStart = a.length + 1
  stop : call.argsStop = a.length + 1 + args.length

theorem arguments_of_match {t : Text} {m : Match Char (SimpleCall Char)}
    (hm : m ∈ simpleCall.findAll (mask t)) {call : MissingCommas}
    (hc : MissingCommas.ofMatch? (mask t) m = some call) :
    (∃ a args rest x y, CallArguments t call a args rest x y) ∧ m.start ≤ call.argsStart ∧
    call.argsStop < m.stop := by
  obtain ⟨pre, behind, hmask, hstart, happ⟩ := Pattern.applies_of_mem_findAll advances_simpleCall hm
  obtain ⟨x', y', e, -, hx, hy, hargs⟩ := simpleCall_eq_some happ
  have hcall : call.argsStart = m.start + m.value.name.length + m.value.gap.length + 1 ∧
      call.argsStop = m.start + m.value.name.length + m.value.gap.length + 1 +
        m.value.args.length := by
    rw [MissingCommas.ofMatch?] at hc
    split at hc
    · cases hc
    · cases hc
      exact ⟨rfl, rfl⟩
  have hglyphs : m.glyphs = m.value.name ++ (m.value.gap ++ x' :: (m.value.args ++ [y'])) := by
    refine (List.append_left_inj behind).mp ?_
    rw [e]
    simp only [List.append_assoc, List.cons_append, List.nil_append]
  have hsplit : mask t = (pre ++ (m.value.name ++ m.value.gap)) ++
      x' :: (m.value.args ++ y' :: behind) := by
    rw [hmask, e]
    simp only [List.append_assoc]
  rw [mask] at hsplit
  obtain ⟨a, l₁, hcells, ha, hl₁⟩ := List.map_eq_append_iff.mp hsplit
  obtain ⟨x, l₂, rfl, hx', hl₂⟩ := List.map_eq_cons_iff.mp hl₁
  obtain ⟨args, l₃, rfl, hargs', hl₃⟩ := List.map_eq_append_iff.mp hl₂
  obtain ⟨y, rest, rfl, hy', -⟩ := List.map_eq_cons_iff.mp hl₃
  have halen : a.length = m.start + m.value.name.length + m.value.gap.length := by
    rw [← List.length_map Cell.masked, ha, hstart]
    simp only [List.length_append]
    omega
  have hargslen : args.length = m.value.args.length := by
    rw [← List.length_map Cell.masked, hargs']
  refine ⟨⟨a, args, rest, x, y, hcells, hx'.trans hx, hy'.trans hy, fun g hg => ?_, ?_, ?_⟩, ?_, ?_⟩
  · have hmem : g.masked ∈ m.value.args := by
      rw [← hargs']
      exact List.mem_map_of_mem hg
    exact (hargs _ hmem).2.2
  · rw [hcall.1, halen]
  · rw [hcall.2, halen, hargslen]
  · omega
  · rw [hcall.2, Match.stop, hglyphs]
    simp only [List.length_append, List.length_cons, List.length_nil]
    omega

theorem code_of_paren {m : Mode} {t : Text} {c : Cell} (h : c ∈ cellsFrom m t) {d : Char}
    (hd : d = '(' ∨ d = ')') (hc : c.masked = d) : c.region = .code ∧ c.char = d := by
  subst hc
  apply code_of_masked h
  · rcases hd with e | e <;> rw [e] <;> decide
  · rcases hd with e | e <;> rw [e] <;> decide
  · rcases hd with e | e <;> rw [e] <;> decide
  · intro q
    rcases hd with e | e <;> rw [e] <;> cases q <;> decide

namespace CallArguments

variable {t : Text} {call : MissingCommas} {a args rest : List Cell} {x y : Cell}

theorem cells_split (h : CallArguments t call a args rest x y) :
    cells t = (a ++ [x]) ++ (args ++ y :: rest) := by
  rw [h.cells_eq, List.append_assoc, List.singleton_append]

theorem slice (h : CallArguments t call a args rest x y) :
    Text.slice t call.argsStart call.argsStop = writtenText args := by
  have := slice_stretch h.cells_split
  rw [List.length_append, List.length_singleton] at this
  rw [h.start, h.stop, this]

theorem slice_mask (h : CallArguments t call a args rest x y) :
    Text.slice (mask t) call.argsStart call.argsStop = args.map Cell.masked := by
  have hlen : ((a ++ [x]).map Cell.masked).length = a.length + 1 := by
    rw [List.length_map, List.length_append, List.length_singleton]
  rw [h.start, h.stop, mask, h.cells_split, List.map_append, Text.slice, List.drop_take,
    List.drop_left' hlen, Nat.add_sub_cancel_left, List.map_append,
    List.take_left' (List.length_map _)]

theorem oneLine (h : CallArguments t call a args rest x y) : Text.OneLine (writtenText args) := by
  intro k
  obtain ⟨g, hg, e⟩ := List.mem_map.mp k
  apply h.line g hg
  rw [Cell.masked, if_pos e, e]

theorem cells_close (h : CallArguments t call a args rest x y) :
    cells t = (a ++ x :: args) ++ y :: rest := by
  rw [h.cells_eq]
  simp only [List.append_assoc, List.cons_append]

theorem stop_eq (h : CallArguments t call a args rest x y) :
    call.argsStop = (a ++ x :: args).length := by
  rw [h.stop, List.length_append, List.length_cons]
  omega

theorem opens_code (h : CallArguments t call a args rest x y) :
    x.region = .code ∧ x.char = '(' := by
  apply @code_of_paren .start t x _ _ (.inl rfl) h.opens
  rw [← cells, h.cells_eq]
  exact List.mem_append_right a List.mem_cons_self

theorem closes_code (h : CallArguments t call a args rest x y) :
    y.region = .code ∧ y.char = ')' := by
  apply @code_of_paren .start t y _ _ (.inr rfl) h.closes
  rw [← cells, h.cells_close]
  exact List.mem_append_right _ List.mem_cons_self

theorem modeAt_start (h : CallArguments t call a args rest x y) :
    modeAt t call.argsStart = .code false := by
  rw [h.start, modeAt_after_code h.cells_eq h.opens_code.1, h.opens_code.2]
  rfl

theorem drop_stop (h : CallArguments t call a args rest x y) :
    t.drop call.argsStop = ')' :: writtenText rest := by
  rw [h.stop_eq, drop_stretch h.cells_close, writtenText, List.map_cons, h.closes_code.2]
  rfl

theorem modeAt_stop (h : CallArguments t call a args rest x y) :
    ∃ b, modeAt t call.argsStop = .code b := by
  rw [h.stop_eq]
  exact modeAt_before_code h.cells_close h.closes_code.1 (by rw [h.closes_code.2]; decide)

theorem bare_stop (h : CallArguments t call a args rest x y) {m : Mode} (hm : m.inCode = true) :
    Bare m (t.drop call.argsStop).head? := by
  obtain ⟨b, rfl⟩ := Mode.exists_code_of_inCode hm
  refine bare_code b fun q e => ?_
  rw [h.drop_stop] at e
  cases q <;> exact absurd (Option.some.inj e) (by decide)

theorem cells_args (h : CallArguments t call a args rest x y) :
    cells (writtenText args) = args := by
  have hstart := h.modeAt_start
  obtain ⟨b, hb⟩ := h.modeAt_stop
  have hlands : Lands (modeAt t call.argsStop) (t.drop call.argsStop).head? :=
    .inl (h.bare_stop (by rw [hb]; rfl))
  rw [h.drop_stop] at hlands
  rw [h.start] at hstart
  rw [h.stop] at hlands
  have hlen : (a ++ [x]).length = a.length + 1 := by
    rw [List.length_append, List.length_singleton]
  rw [← hlen] at hstart hlands
  refine cells_stretch h.cells_split hstart ?_
  rw [writtenText, List.map_cons, h.closes_code.2]
  exact hlands

/-- Read by itself an argument list ends in code. -/
theorem inCode_args (h : CallArguments t call a args rest x y) :
    (Mode.start.after none (writtenText args)).inCode = true := by
  obtain ⟨b, hb⟩ := h.modeAt_stop
  have hle : call.argsStart ≤ call.argsStop := by
    rw [h.start, h.stop]
    exact Nat.le_add_right ..
  rw [modeAt_slice t hle, h.modeAt_start, h.slice] at hb
  have hread := @readsAlike_of_code _ _ _ none _ hb (.inr fun c e => by cases e)
  exact congrArg Mode.inCode (hread.2.symm.trans hb)

theorem sound (h : CallArguments t call a args rest x y) :
    Edit.Sound t ⟨call.argsStart, call.argsStop, insertCommas (writtenText args)
      (mask (writtenText args))⟩ := by
  obtain ⟨b, hb⟩ := h.modeAt_stop
  obtain ⟨hcode, -, -⟩ := insertCommas_notes h.oneLine h.inCode_args
  refine ⟨.inl h.modeAt_start, .inl h.modeAt_start, .inl ?_, .inl (h.bare_stop (by rw [hb]; rfl)),
    ?_, .inl (h.bare_stop hcode)⟩
  · have htake : t.take call.argsStart = writtenText (a ++ [x]) := by
      have := congrArg writtenText h.cells_split
      rw [writtenText, cells, cellsFrom_chars] at this
      rw [this, writtenText, List.map_append, List.take_left']
      · rfl
      · rw [h.start, List.length_map, List.length_append, List.length_singleton]
    dsimp only
    rw [htake, writtenText, List.map_append, List.map_singleton, List.getLast?_concat,
      h.opens_code.2]
    decide
  · obtain ⟨b', hb'⟩ := Mode.exists_code_of_inCode hcode
    refine readsAlike_of_code hb' (.inr fun c hc => ?_)
    dsimp only at hc
    rw [h.drop_stop] at hc
    cases hc
    exact ⟨by decide, by decide⟩

end CallArguments

def callEdit (t : Text) (call : MissingCommas) : Edit :=
  ⟨call.argsStart, call.argsStop,
    insertCommas (Text.slice t call.argsStart call.argsStop)
      (Text.slice (mask t) call.argsStart call.argsStop)⟩

def argsOf (t : Text) (call : MissingCommas) : Text := Text.slice t call.argsStart call.argsStop

theorem callArguments_of_mem {t : Text} {call : MissingCommas} (h : call ∈ missingCommas t) :
    ∃ a args rest x y, CallArguments t call a args rest x y := by
  obtain ⟨m, hm, hc⟩ := List.mem_filterMap.mp h
  exact (arguments_of_match hm hc).1

theorem callEdit_eq {t : Text} {call : MissingCommas} (h : call ∈ missingCommas t) :
    callEdit t call =
      ⟨call.argsStart, call.argsStop, insertCommas (argsOf t call) (mask (argsOf t call))⟩ := by
  obtain ⟨a, args, rest, x, y, hargs⟩ := callArguments_of_mem h
  rw [callEdit, argsOf, hargs.slice, hargs.slice_mask, mask, hargs.cells_args]

theorem sound_callEdit {t : Text} {call : MissingCommas} (h : call ∈ missingCommas t) :
    Edit.Sound t (callEdit t call) := by
  obtain ⟨a, args, rest, x, y, hargs⟩ := callArguments_of_mem h
  rw [callEdit_eq h, argsOf, hargs.slice]
  exact hargs.sound

theorem ordered_callEdits (t : Text) :
    Edit.Ordered t.length 0 ((missingCommas t).map (callEdit t)) := by
  rw [missingCommas, List.map_filterMap]
  refine @Pattern.Successive.ordered _ _ 0 _ 0 _
    (Pattern.successive_findAll advances_simpleCall _) _ ?_
  intro m hm e he
  obtain ⟨call, hc, rfl⟩ := Option.map_eq_some_iff.mp he
  obtain ⟨⟨a, args, rest, x, y, hargs⟩, hstart, hstop⟩ := arguments_of_match hm hc
  have hlen := congrArg List.length hargs.cells_eq
  rw [cells, cellsFrom_length] at hlen
  simp only [List.length_append, List.length_cons] at hlen
  have := hargs.start
  have := hargs.stop
  simp only [callEdit]
  omega

theorem separateArguments_text (t : Text) :
    (separateArguments t).text = Edit.splice t 0 ((missingCommas t).map (callEdit t)) :=
  Edit.applyAll_eq_splice t (ordered_callEdits t)

theorem separateArguments_revises (t : Text) : Revises .start t (separateArguments t).text
    ((missingCommas t).map fun call =>
      ⟨argsOf t call, insertCommas (argsOf t call) (mask (argsOf t call))⟩) := by
  have hrev := Edit.revises_splice (ordered_callEdits t) fun e he => by
    obtain ⟨call, hc, rfl⟩ := List.mem_map.mp he
    exact sound_callEdit hc
  have hswaps : ((missingCommas t).map (callEdit t)).map (Edit.swap t) =
      (missingCommas t).map fun call =>
        ⟨argsOf t call, insertCommas (argsOf t call) (mask (argsOf t call))⟩ := by
    rw [List.map_map]
    refine List.map_congr_left fun call hc => ?_
    rw [Function.comp_apply, callEdit_eq hc]
    rfl
  rw [separateArguments_text, ← hswaps]
  exact hrev

def InputsClear (t : Text) : Prop := ∀ m ∈ commalessInputs t, ∀ c ∈ m.value.gap, c.isCode = true

/-- No comment stands between two arguments of a call that has lost its commas. -/
def ArgumentsClear (t : Text) : Prop :=
  ∀ call ∈ missingCommas t, ∀ m ∈ tokenGaps (argsOf t call),
    ∀ c ∈ Text.slice (cells (argsOf t call)) (m.start + 1) m.stop, c.isCode = true

instance (t : Text) :
    Decidable (InputsClear t) := inferInstanceAs (Decidable (∀ m ∈ commalessInputs t, _))

instance (t : Text) :
    Decidable (ArgumentsClear t) := inferInstanceAs (Decidable (∀ call ∈ missingCommas t, _))

theorem notes_separateInputs (t : Text) :
    (notes (separateInputs t).text).length ≤ (notes t).length ∧
    ((notes (separateInputs t).text).length = (notes t).length → InputsClear t) ∧
    (InputsClear t → notes (separateInputs t).text = notes t) := by
  obtain ⟨hlength, hlost, hkept⟩ :=
    @Revises.notes_lost _ _ _ (separateInputs_revises t) (fun s => (notes s.old).length)
      fun s hs => by
      obtain ⟨m, -, rfl⟩ := List.mem_map.mp hs
      rw [notes_separator, List.length_nil, Nat.zero_add]
      exact ⟨rfl, fun e => (List.eq_nil_of_length_eq_zero e).symm⟩
  have hclear :
    (∀ s ∈ (commalessInputs t).map (fun m => (⟨writtenText m.value.gap, separator⟩ : Swap)),
      (notes s.old).length = 0) ↔ InputsClear t := by
    rw [List.forall_mem_map]
    refine forall₂_congr fun m hm => ?_
    obtain ⟨a, rest, x, y, hgap, -⟩ := gap_of_input hm
    rw [List.length_eq_zero_iff, hgap.notes_eq_nil_iff]
  exact ⟨by omega, fun e => hclear.mp (hlost e), fun h => hkept (hclear.mpr h)⟩

theorem notes_separateArguments (t : Text) :
    (notes (separateArguments t).text).length ≤ (notes t).length ∧
    ((notes (separateArguments t).text).length = (notes t).length → ArgumentsClear t) ∧
    (ArgumentsClear t → notes (separateArguments t).text = notes t) := by
  obtain ⟨hlength, hlost, hkept⟩ :=
    @Revises.notes_lost _ _ _ (separateArguments_revises t) (fun s => gapNotes s.old) fun s hs => by
      obtain ⟨call, hc, rfl⟩ := List.mem_map.mp hs
      obtain ⟨a, args, rest, x, y, hargs⟩ := callArguments_of_mem hc
      have harg : argsOf t call = writtenText args := hargs.slice
      rw [harg]
      exact (insertCommas_notes hargs.oneLine hargs.inCode_args).2
  have hclear : (∀ s ∈ (missingCommas t).map (fun call =>
      (⟨argsOf t call, insertCommas (argsOf t call) (mask (argsOf t call))⟩ : Swap)),
      gapNotes s.old = 0) ↔
      ArgumentsClear t := by
    rw [List.forall_mem_map]
    exact forall₂_congr fun call hc => gapNotes_eq_zero_iff _
  exact ⟨by omega, fun e => hclear.mp (hlost e), fun h => hkept (hclear.mpr h)⟩

/-- Putting in commas keeps the notes exactly if no comment stands where a comma goes. -/
theorem notes_insertMissingCommas (t : Text) :
    notes (insertMissingCommas t).text = notes t ↔ InputsClear t ∧
    ArgumentsClear (separateInputs t).text := by
  have htext : (insertMissingCommas t).text = (separateArguments (separateInputs t).text).text :=
    rfl
  obtain ⟨hle, hlost, hkept⟩ := notes_separateInputs t
  obtain ⟨hle', hlost', hkept'⟩ := notes_separateArguments (separateInputs t).text
  rw [htext]
  constructor
  · intro h
    -- The second repair adds no notes, so what the first one lost would be missing.
    have hlen := congrArg List.length h
    exact ⟨hlost (by omega), hlost' (by omega)⟩
  · rintro ⟨h, h'⟩
    exact (hkept' h').trans (hkept h)

end PineTools.Repair
