import PineTools.Proofs.Repair.Closed
import PineTools.Proofs.Repair.Exports

/-! Exported variables that stand apart from block comments. Such a line is read on its own, and
the lines that replace it show its parts, with blanks where its comment is. -/
namespace PineTools

open Mode

theorem cells_front {t : Text} {a rest : List Cell} (h : cells t = a ++ rest) :
    cellsUpTo .start (writtenText rest).head? (writtenText a) = a := by
  rw [← drop_stretch h, ← Repair.take_stretch h, ← cellsFrom_take, ← cells, h, List.take_left]

section Front

variable {t : Text} {gap rest : List Cell} (hcells : cells t = gap ++ rest)
  (hblank : ∀ c ∈ gap, Text.isBlank c.masked = true) {b : Bool}
  (hcode : modeAt t gap.length = .code b)
include hcells hblank hcode

theorem read_blank_front {x : Text} (hx : Bare (.code b) x.head?) :
    cells (writtenText gap ++ x) = gap ++ cells x ∧
      (x ≠ [] → ∀ ahead, Mode.start.after ahead (writtenText gap ++ x) =
        Mode.start.after ahead x) := by
  have hreads := Repair.readsAlike_of_blank hcells hblank hcode x.head?
  have hgap := (cells_front hcells).symm
  have hmode : Mode.start.after x.head? (writtenText gap) = .code b := by
    rw [← hreads.2, ← hcode, modeAt, drop_stretch hcells, Repair.take_stretch hcells]
  constructor
  · rw [cells, cellsFrom_append, ← hreads.1, ← hgap, hmode, cellsFrom_lands (.inl hx)]
    rfl
  · intro hne ahead
    cases x with
    | nil => exact absurd rfl hne
    | cons c x =>
      rw [Mode.after_append, List.head?_cons, Option.some_or]
      rw [List.head?_cons] at hmode hx
      rw [hmode, Mode.after, Mode.after, hx.step]

end Front

def Edit.masked (e : Edit) : Edit := ⟨e.start, e.stop, mask e.replacement⟩

theorem Edit.mask_splice {t : Text} {offset : Nat} {es : List Edit}
    (ho : Edit.Ordered t.length offset es) (hs : ∀ e ∈ es, Edit.Sound t e) :
    (cellsFrom (modeAt t offset) (Edit.splice t offset es)).map Cell.masked =
      Edit.splice (mask t) offset (es.map Edit.masked) := by
  have hdrop (i : Nat) : (cellsFrom (modeAt t i) (t.drop i)).map Cell.masked = (mask t).drop i := by
    rw [mask, cells, ← List.map_drop, cellsFrom_drop]
    rfl
  induction es generalizing offset with
  | nil => exact hdrop offset
  | cons e es ih =>
    obtain ⟨hstart, hstop, hlen, hrest⟩ := ho
    have he := hs e List.mem_cons_self
    have hhead : (Edit.splice t e.stop es).head? = (t.drop e.stop).head? :=
      Edit.head?_splice t hrest
    have hlater := ih (hrest.weaken (Nat.le_succ _)) fun d hd => hs d (List.mem_cons_of_mem e hd)
    have hsame := he.reads_front hstart hhead
    -- What stands in front of the edit shows what it showed.
    have hfront :
      (cellsUpTo (modeAt t offset) (t.drop e.start).head? (Text.slice t offset e.start)).map
      Cell.masked =
        Text.slice (mask t) offset e.start := by
      have hsplit := hdrop offset
      rw [← Edit.slice_append_drop t hstart, cellsFrom_append, ← modeAt_slice t hstart,
        List.map_append, hdrop e.start, ← Edit.slice_append_drop (mask t) hstart] at hsplit
      exact List.append_left_inj _ |>.mp hsplit
    have hbegins : Bare (modeAt t e.start) (e.replacement ++ Edit.splice t e.stop es).head? := by
      rw [List.head?_append, hhead, ← List.head?_append]
      exact he.begins_new
    have hnew := cellsFrom_stretch hbegins (by rw [hhead]; exact he.reads_new)
      (by rw [hhead]; exact he.lands_new)
    have hlands : cellsFrom .start (Edit.splice t e.stop es) = cellsFrom (modeAt t e.stop)
        (Edit.splice t e.stop es) :=
      (cellsFrom_lands (by rw [hhead]; exact he.lands)).symm
    rw [Edit.splice, List.append_assoc, cellsFrom_append, ← hsame.1, ← hsame.2,
      ← modeAt_slice t hstart, hnew, hlands, List.map_append, List.map_append, hfront, hlater]
    simp only [List.map_cons, Edit.splice, Edit.masked, List.append_assoc]
    rfl

namespace Repair

def exportText (e : ExportedVariable Cell) (head : List Cell) : Text :=
  writtenText (e.indent ++ (head ++ (e.value ++ e.tail)))

/-- An exported variable whose text is read as it is in the script, and leaves no comment open. -/
structure ReadsExport (e : ExportedVariable Cell) (head : List Cell) : Prop where
  cells_eq : cells (exportText e head) = e.indent ++ (head ++ (e.value ++ e.tail))
  ends : (Mode.start.after none (exportText e head)).inBlock = false
  indent : ∀ c ∈ e.indent, Text.isBlank c.masked = true
  head : ExportHead head e.kind e.name
  value : ∀ c ∈ e.value, c.masked ≠ '\n'
  first : ∀ c, (e.value ++ e.tail).head? = some c → Text.isBlank c.masked = false
  last : ∀ c, e.value.getLast? = some c → Text.isBlank c.masked = false
  tail : ExportTail e.tail

theorem mask_tail {tail : List Cell} (h : ExportTail tail)
    (hcells : cells (writtenText tail) = tail) :
    ∀ c ∈ mask (writtenText (tail.eraseP fun c => Glyph.seen c == ';')), Text.isBlank c = true := by
  obtain ⟨gap, semicolon, rest, rfl, hlen, hsemicolon, hblank⟩ := h
  obtain ⟨hgap, hrest⟩ := List.forall_mem_append.mp hblank
  have hother : ∀ c ∈ gap ++ rest, ¬(Glyph.seen c == ';') = true := fun c hc e => by
    have hb : Text.isBlank c.masked = true := hblank c hc
    exact masked_of_blank hb (by decide) (beq_iff_eq.mp e)
  match semicolon, hlen with
  | [], _ =>
    rw [List.nil_append] at hcells ⊢
    rw [List.eraseP_of_forall_not hother, mask, hcells]
    exact List.forall_mem_map.mpr hblank
  | [s], _ =>
    have hs : s.masked = ';' := hsemicolon s (List.mem_singleton_self s)
    rw [List.singleton_append] at hcells ⊢
    have hnot : ∀ c ∈ gap, ¬(Glyph.seen c == ';') = true :=
      fun c hc => hother c (List.mem_append_left rest hc)
    have herase : (s :: rest).eraseP (fun c => Glyph.seen c == ';') = rest :=
      @List.eraseP_cons_of_pos _ s rest (fun c => Glyph.seen c == ';') (beq_iff_eq.mpr hs)
    obtain ⟨hregion, hchar⟩ :=
      semicolon_code (hcells ▸ List.mem_append_right gap List.mem_cons_self) hs
    obtain ⟨b, hb⟩ := modeAt_before_code hcells hregion (by rw [hchar]; decide)
    have hmode := modeAt_after_shown hcells
      (fun x hx => masked_of_blank (hgap x (List.mem_of_getLast? hx)) (by decide)) hb
    have hbehind : cells (writtenText rest) = rest := by
      have hsplit : cells (writtenText (gap ++ s :: rest)) = (gap ++ [s]) ++ rest := by
        rw [hcells, List.append_assoc, List.singleton_append]
      have hread := cells_at hsplit
      have hlen : (gap ++ [s]).length = gap.length + 1 := by
        rw [List.length_append, List.length_singleton]
      rw [drop_stretch hsplit, hlen, modeAt_after_tame hcells hregion
        (by rw [hchar]; decide)] at hread
      exact hread
    rw [List.eraseP_append_right _ hnot, herase, writtenText_append, mask,
      (read_blank_front hcells hgap hmode (x := writtenText rest) (.inl rfl)).1, hbehind]
    exact List.forall_mem_map.mpr hblank

namespace ReadsExport

variable {e : ExportedVariable Cell} {head : List Cell} (h : ReadsExport e head)
include h

theorem mem_cells {c : Cell} (hc : c ∈ e.indent ++ (head ++ (e.value ++ e.tail))) :
    c ∈ cells (exportText e head) := h.cells_eq ▸ hc

theorem keyword : ∃ k more, head = k :: more ∧ k.region = .code ∧ k.char = 'e' := by
  obtain ⟨keyword, blanks₁, blanks₂, blanks₃, equals, blanks₄, rfl, hkeyword, -⟩ := h.head.parts
  cases keyword with
  | nil => cases hkeyword
  | cons k more =>
    have hk : k.masked = 'e' := (List.cons.inj hkeyword).1
    have hmem :=
      @mem_cells _ _ h k (List.mem_append_right _ (List.mem_append_left _ List.mem_cons_self))
    have hcode := code_of_masked hmem
    rw [hk] at hcode
    obtain ⟨hregion, hchar⟩ := hcode (by decide) (by decide) (by decide) fun q => by
      cases q <;> decide
    exact ⟨k, _, rfl, hregion, hchar⟩

theorem read_indent {x : Text} {c : Char} (hx : x.head? = some c) (hc : Tame c) :
    cells (writtenText e.indent ++ x) = e.indent ++ cells x ∧
      ∀ ahead, Mode.start.after ahead (writtenText e.indent ++ x) = Mode.start.after ahead x := by
  obtain ⟨k, more, hhead, hregion, hchar⟩ := h.keyword
  have hcells := h.cells_eq
  rw [hhead, List.cons_append] at hcells
  obtain ⟨b, hb⟩ := modeAt_before_code hcells hregion (by rw [hchar]; decide)
  have hread := read_blank_front hcells h.indent hb (x := x) (by rw [hx]; exact hc.bare b)
  refine ⟨hread.1, hread.2 ?_⟩
  rintro rfl
  cases hx

theorem name_code : ∀ c ∈ e.name, c.region = .code ∧ Text.isWord c.char = true := by
  obtain ⟨keyword, blanks₁, blanks₂, blanks₃, equals, blanks₄, hhead, -, hequals, -, -, hblank⟩ :=
    h.head.parts
  have hword : ∀ c ∈ e.name, Text.isWord c.masked = true := h.head.name.2
  obtain ⟨y, b, hbehind⟩ : ∃ y b, blanks₃ ++ equals :: (blanks₄ ++ (e.value ++ e.tail)) = y ::
      b := by
    cases blanks₃ with
    | nil => exact ⟨_, _, rfl⟩
    | cons y ys => exact ⟨_, _, rfl⟩
  have hcells := h.cells_eq
  have hsplit : e.indent ++ (head ++ (e.value ++ e.tail)) =
      (e.indent ++ (keyword ++ (blanks₁ ++ (e.kind ++ blanks₂)))) ++ (e.name ++ y :: b) := by
    rw [← hbehind, hhead]
    simp only [List.append_assoc, List.cons_append]
  have hy : y.char ≠ '\n' ∧ y.region.isLiteral = false := by
    have hmem : y ∈ cells (exportText e head) := by
      refine h.mem_cells ?_
      rw [hsplit]
      exact List.mem_append_right _ (List.mem_append_right _ List.mem_cons_self)
    cases blanks₃ with
    | cons z zs =>
      cases hbehind
      exact region_of_blank hmem (hblank _ (by simp))
    | nil =>
      cases hbehind
      have hcode := code_of_masked hmem
      rw [show equals.masked = '=' from hequals] at hcode
      obtain ⟨hregion, hchar⟩ := hcode (by decide) (by decide) (by decide) fun q => by
        cases q <;> decide
      rw [hregion, hchar]
      exact ⟨by decide, rfl⟩
  rw [hsplit] at hcells
  have hcode :=
    code_of_name hcells (fun c hc => Bool.or_eq_true_iff.mpr (.inl (hword c hc))) hy.1 hy.2
  refine fun c hc => ⟨hcode c hc, ?_⟩
  rw [← Cell.masked_of_code (hcode c hc)]
  exact hword c hc

theorem writtenText_name : writtenText e.name = seenText e.name :=
  List.map_congr_left fun c hc => (Cell.masked_of_code (h.name_code c hc).1).symm

/-- The value begins in code, unless nothing follows the sign. -/
theorem modeAt_value (hne : e.value ++ e.tail ≠ []) :
    modeAt (exportText e head) (e.indent ++ head).length = .start := by
  obtain ⟨keyword, blanks₁, blanks₂, blanks₃, equals, blanks₄, hhead, -, hequals, -, -, hblank⟩ :=
    h.head.parts
  obtain ⟨y, b, hy⟩ := List.exists_cons_of_ne_nil hne
  obtain ⟨init, x, hinit, hx⟩ : ∃ init x, e.indent ++ head = init ++ [x] ∧
      (Text.isBlank x.masked = true ∨ x.masked = '=') := by
    rcases List.eq_nil_or_concat blanks₄ with rfl | ⟨gs, g, rfl⟩
    · exact ⟨e.indent ++ (keyword ++ (blanks₁ ++ (e.kind ++ (blanks₂ ++ (e.name ++ blanks₃))))),
        equals, by rw [hhead]; simp only [List.append_assoc], .inr hequals⟩
    · refine ⟨e.indent ++ (keyword ++ (blanks₁ ++ (e.kind ++ (blanks₂ ++ (e.name ++ (blanks₃ ++
        equals :: gs)))))), g, ?_, .inl (hblank g (by simp))⟩
      rw [hhead, List.concat_eq_append]
      simp only [List.append_assoc, List.cons_append]
  have hcells := h.cells_eq
  rw [← List.append_assoc, hy] at hcells
  have hsplit := hcells
  rw [hinit, List.append_assoc, List.singleton_append] at hsplit
  have hmem {c : Cell} (hc : c ∈ init ++ x :: y :: b) : c ∈ cells (exportText e head) := hsplit ▸ hc
  have hyb := h.first y (by rw [hy]; rfl)
  have hyn : y.masked ≠ '\n' := by
    have hmem : y ∈ e.value ∨ y ∈ e.tail := List.mem_append.mp (hy ▸ List.mem_cons_self)
    rcases hmem with hv | ht
    · exact h.value y hv
    · have hn :=
        (mem_exportTail h.tail (t := exportText e head)
          (fun c hc => h.mem_cells (by simp [hc])) ht).1
      exact fun k => hn (char_of_newline k)
  obtain ⟨hn, hcomment⟩ := region_of_shown hyb hyn
  have hliteral : x.region.isLiteral = false := by
    rcases hx with hx | hx
    · exact (region_of_blank (hmem (by simp)) hx).2
    · have hcode := code_of_masked (hmem (c := x) (by simp))
      rw [hx] at hcode
      rw [(hcode (by decide) (by decide) (by decide) fun q => by cases q <;> decide).1]
      rfl
  obtain ⟨k, hk⟩ := modeAt_between_code hsplit hn (fun _ => hcomment)
    (fun k => absurd (hliteral.symm.trans k) Bool.false_ne_true)
  have hlen : (e.indent ++ head).length = init.length + 1 := by
    rw [hinit, List.length_append, List.length_singleton]
  rw [← hlen] at hk
  refine modeAt_after_shown hcells (fun c hc => ?_) hk
  rw [hinit, List.getLast?_concat] at hc
  cases hc
  rcases hx with hx | hx
  · exact masked_of_blank hx (by decide)
  · rw [hx]
    decide

theorem read_value : cells (writtenText (e.value ++ e.tail)) = e.value ++ e.tail ∧
    (e.value ++ e.tail ≠ [] → Mode.start.after none (writtenText (e.value ++ e.tail)) =
      Mode.start.after none (exportText e head)) := by
  by_cases hne : e.value ++ e.tail = []
  · rw [hne]
    exact ⟨rfl, fun k => absurd rfl k⟩
  · have hstart := h.modeAt_value hne
    have hcells := h.cells_eq
    rw [← List.append_assoc] at hcells
    have hread := cells_at hcells
    rw [hstart, drop_stretch hcells] at hread
    refine ⟨hread, fun _ => ?_⟩
    have hsplit : exportText e head = writtenText (e.indent ++ head) ++
        writtenText (e.value ++ e.tail) := by
      rw [exportText, ← List.append_assoc, writtenText_append]
    rw [modeAt, drop_stretch hcells, take_stretch hcells] at hstart
    rw [hsplit, Mode.after_append, Option.or_none, hstart]

section Tail

variable (htail : e.tail ≠ [])
include htail

/-- The value ends in code, and what stands behind it is read on its own. -/
theorem read_tail : ∃ b,
    (Mode.start.after (writtenText e.tail).head? (writtenText e.value) = .code b ∧
      cellsUpTo .start (writtenText e.tail).head? (writtenText e.value) = e.value) ∧
    cells (writtenText e.tail) = e.tail ∧
    Mode.start.after none (writtenText e.tail) = Mode.start.after none (exportText e head) := by
  obtain ⟨hcells, hafter⟩ := h.read_value
  obtain ⟨b, hb, hbare⟩ := Repair.modeAt_value hcells h.tail h.value h.last htail
  have hread := cells_at hcells
  rw [drop_stretch hcells, hb, cellsFrom_lands (.inl hbare)] at hread
  rw [modeAt, drop_stretch hcells, take_stretch hcells] at hb
  refine ⟨b, ⟨hb, cells_front hcells⟩, hread, ?_⟩
  rw [← hafter (List.append_ne_nil_of_right_ne_nil _ htail), writtenText_append, Mode.after_append,
    Option.or_none, hb]
  have hne : writtenText e.tail ≠ [] := fun k => htail (List.map_eq_nil_iff.mp k)
  cases hw : writtenText e.tail with
  | nil => exact absurd hw hne
  | cons c w =>
    rw [hw, List.head?_cons] at hbare
    rw [Mode.after, Mode.after, hbare.step]

/-- In front of a space, or of nothing, the value is read as it is in front of its tail. -/
theorem read_value_before : ∃ b, ∀ x : Text, (∀ c, x.head? = some c → c = ' ') →
    cells (writtenText e.value ++ x) = e.value ++ cells x ∧
      Mode.start.after none (writtenText e.value ++ x) = (Mode.code b).after none x := by
  obtain ⟨b, ⟨hb, hvalue⟩, -, -⟩ := h.read_tail htail
  refine ⟨b, fun x hx => ?_⟩
  have hquiet : ∀ c, x.head? = some c → Quiet c := fun c hc => by
    rw [hx c hc]
    exact ⟨by decide, by decide⟩
  have hsame := readsAlike_of_code hb (.inr hquiet)
  have hnext : Bare (.code b) x.head? := by
    cases x with
    | nil => exact bare_code b fun q k => by cases k
    | cons c x =>
      rw [hx c rfl]
      exact Tame.bare (by decide) b
  constructor
  · rw [cells, cellsFrom_append, ← hsame.1, hvalue, ← hsame.2, hb, cellsFrom_lands (.inl hnext)]
    rfl
  · rw [Mode.after_append, Option.or_none, ← hsame.2, hb]

/-- The comment in the tail shows nothing, and leaves open what the line left open. -/
theorem read_comment : (∀ c ∈ mask (exportComment e.tail), Text.isBlank c = true) ∧
    (Mode.start.after none (exportComment e.tail)).inBlock = false ∧
    (Mode.start.after none (exportComment e.tail)).inLiteral =
      (Mode.start.after none (exportText e head)).inLiteral := by
  obtain ⟨-, -, hcells, hends⟩ := h.read_tail htail
  obtain ⟨kept, hkept, hblank, -, hkeptEnds, -⟩ := exportTail_kept h.tail hcells
  have hline : Text.OneLine (writtenText kept) := fun k => by
    obtain ⟨c, hc, hchar⟩ := List.mem_map.mp k
    exact (cells_of_blank hcells (hblank c hc).1 (hblank c hc).2).1 hchar
  have hcomment : exportComment e.tail = Text.strip (writtenText kept) := by
    rw [exportComment, hkept]
  obtain ⟨hblock, hliteral⟩ := ends_strip hline
  rw [← hcomment, hkeptEnds, hends] at hblock hliteral
  refine ⟨fun c hc => mask_tail h.tail hcells c ?_, hblock.trans h.ends, hliteral⟩
  rw [hkept]
  rw [hcomment] at hc
  exact mem_mask_strip hc

end Tail

/-- Behind the value nothing but blanks shows, and what was open at the end of the line is so. -/
theorem read_suffix :
    ∃ behind, mask (writtenText e.value ++ exportSuffix e.tail) = seenText e.value ++ behind ∧
    (∀ c ∈ behind, Text.isBlank c = true) ∧
    (Mode.start.after none (writtenText e.value ++ exportSuffix e.tail)).inBlock = false ∧
    ((Mode.start.after none (exportText e head)).inLiteral = false →
      (Mode.start.after none (writtenText e.value ++ exportSuffix e.tail)).inLiteral = false) := by
  by_cases htail : e.tail = []
  · obtain ⟨hcells, hafter⟩ := h.read_value
    have hsuffix : exportSuffix e.tail = [] := by rw [htail]; rfl
    rw [htail, List.append_nil] at hcells hafter
    rw [hsuffix, List.append_nil]
    refine ⟨[], ?_, List.forall_mem_nil _, ?_⟩
    · rw [mask, hcells, List.append_nil]
      rfl
    · by_cases hvalue : e.value = []
      · rw [hvalue]
        exact ⟨rfl, fun _ => rfl⟩
      · rw [hafter hvalue]
        exact ⟨h.ends, id⟩
  · obtain ⟨b, hbefore⟩ := h.read_value_before htail
    obtain ⟨hshown, hblock, hliteral⟩ := h.read_comment htail
    rw [exportSuffix]
    split
    case isTrue hempty =>
      obtain ⟨hmask, hmode⟩ := hbefore [] fun c k => by cases k
      rw [hmode]
      refine ⟨[], ?_, List.forall_mem_nil _, rfl, fun _ => rfl⟩
      rw [mask, hmask, List.map_append]
      rfl
    case isFalse =>
      obtain ⟨hmask, hmode⟩ := hbefore (' ' :: ' ' :: exportComment e.tail) fun c k =>
        (Option.some.inj k).symm
      have hspaces : mask (' ' :: ' ' :: exportComment e.tail) =
          ' ' :: ' ' :: mask (exportComment e.tail) :=
        @mask_tame_append [' ', ' '] (by decide) (exportComment e.tail)
      have hspace : (Mode.code b).after none (' ' :: ' ' :: exportComment e.tail) =
          Mode.start.after none (exportComment e.tail) := by
        have hbare : Bare (.code b) (some ' ') := Tame.bare (by decide) b
        rw [Mode.after, hbare.step]
        rfl
      rw [hmode, hspace, hliteral]
      refine ⟨' ' :: ' ' :: mask (exportComment e.tail), ?_, ?_, hblock, id⟩
      · rw [mask, hmask, List.map_append, ← hspaces]
        rfl
      · exact List.forall_mem_cons.mpr ⟨by decide, List.forall_mem_cons.mpr ⟨by decide, hshown⟩⟩

theorem tame_newLead (v : ScriptVersion) :
    ∃ c front, (exportKeyword v e.kind).toList ++ ' ' :: (writtenText e.name ++ " = ".toList) =
      c :: front ∧
      ∀ d ∈ c :: front, Tame d := by
  have hname : ∀ d ∈ writtenText e.name, Tame d := List.forall_mem_map.mpr fun c hc =>
    (tame_of_isWordOrDot (Bool.or_eq_true_iff.mpr (.inl (h.name_code c hc).2))).1
  have hall : ∀ d ∈ (exportKeyword v e.kind).toList ++ ' ' :: (writtenText e.name ++ " = ".toList),
      Tame d := by
    simp only [List.forall_mem_append, List.forall_mem_cons]
    exact ⟨exportKeyword_tame v _, by decide, hname, by decide⟩
  obtain ⟨c, front, hfront⟩ : ∃ c front,
      (exportKeyword v e.kind).toList ++ ' ' :: (writtenText e.name ++ " = ".toList) = c :: front :=
    List.exists_cons_of_ne_nil (List.append_ne_nil_of_right_ne_nil _ (List.cons_ne_nil _ _))
  exact ⟨c, front, hfront, hfront ▸ hall⟩

theorem mask_declaration (v : ScriptVersion) :
    mask (newLead v e ++ (writtenText e.value ++ exportSuffix e.tail)) =
      seenText e.indent ++
        ((exportKeyword v e.kind).toList ++ ' ' :: (seenText e.name ++ " = ".toList)) ++
        mask (writtenText e.value ++ exportSuffix e.tail) ∧
    Mode.start.after none (newLead v e ++ (writtenText e.value ++ exportSuffix e.tail)) =
      Mode.start.after none (writtenText e.value ++ exportSuffix e.tail) := by
  obtain ⟨c, front, hfront, htame⟩ := h.tame_newLead v
  have hlead : newLead v e ++ (writtenText e.value ++ exportSuffix e.tail) =
      writtenText e.indent ++ ((c :: front) ++ (writtenText e.value ++ exportSuffix e.tail)) := by
    rw [newLead, hfront, List.append_assoc]
  obtain ⟨hcells, hafter⟩ := h.read_indent
    (x := (c :: front) ++ (writtenText e.value ++ exportSuffix e.tail)) rfl
      (htame c List.mem_cons_self)
  have hbehind := mask_tame_append htame (writtenText e.value ++ exportSuffix e.tail)
  constructor
  · rw [hlead, mask, hcells, List.map_append, ← mask, hbehind, ← h.writtenText_name, hfront,
      ← List.append_assoc]
    rfl
  · rw [hlead, hafter, Mode.after_append, Option.or_none, after_tame htame]

theorem mask_newExport :
    mask (newExport e) = seenText e.indent ++ ("export ".toList ++ seenText e.name) ∧
    Mode.start.after none (newExport e) = .start := by
  have htame : ∀ d ∈ "export ".toList ++ writtenText e.name, Tame d :=
    List.forall_mem_append.mpr ⟨by decide, List.forall_mem_map.mpr fun c hc =>
      (tame_of_isWordOrDot (Bool.or_eq_true_iff.mpr (.inl (h.name_code c hc).2))).1⟩
  obtain ⟨hcells, hafter⟩ := h.read_indent (x := "export ".toList ++ writtenText e.name)
      (c := 'e') rfl (by decide)
  constructor
  · rw [newExport, mask, hcells, List.map_append, ← mask, mask_tame htame, h.writtenText_name]
    rfl
  · rw [newExport, hafter, after_tame htame]

/-- What the lines that replace an exported variable show. -/
theorem mask_replacement (v : ScriptVersion) :
    mask (exportReplacement v e) =
      mask (newLead v e ++ (writtenText e.value ++ exportSuffix e.tail)) ++
        '\n' :: mask (newExport e) ∧
      Mode.start.after none (exportReplacement v e) = .start := by
  obtain ⟨behind, -, -, hblock, -⟩ := h.read_suffix
  rw [← (h.mask_declaration v).2] at hblock
  rw [exportReplacement_eq]
  refine ⟨mask_newline hblock _, ?_⟩
  have hentry :
      (Mode.start.after none (newLead v e ++ (writtenText e.value ++ exportSuffix e.tail))).entry =
      .start := by
    rw [entry, hblock]
    rfl
  rw [after_newline rfl, hentry, h.mask_newExport.2]

/-- The lines that replace an exported variable leave no literal open that it did not. -/
theorem closed_replacement (v : ScriptVersion)
    (hclosed : (Mode.start.after none (exportText e head)).inLiteral = false)
    (hone : Text.OneLine (newLead v e ++ (writtenText e.value ++ exportSuffix e.tail)) ∧
    Text.OneLine (newExport e)) :
    unclosedLiterals (exportReplacement v e) = [] := by
  obtain ⟨behind, -, -, hblock, hliteral⟩ := h.read_suffix
  have hend := (h.mask_declaration v).2
  have hliteral := hliteral hclosed
  rw [← hend] at hblock hliteral
  have hentry :
      (Mode.start.after none (newLead v e ++ (writtenText e.value ++ exportSuffix e.tail))).entry =
      .start := by
    rw [entry, hblock]
    rfl
  rw [exportReplacement_eq, unclosedLiterals, unclosedFrom_more rfl hone.1, hentry,
    unclosedFrom_last hone.2, h.mask_newExport.2, List.append_eq_nil_iff, openAt_eq_nil_iff]
  refine ⟨fun q k => ?_, rfl⟩
  rw [k] at hliteral
  cases hliteral

end ReadsExport

/-- No block comment goes on into the line of an exported variable, or behind it. -/
def ExportApart (t : Text) (m : Match Cell (ExportedVariable Cell)) : Prop :=
  (modeAt t m.start).inBlock = false ∧ (modeAt t m.stop).inBlock = false

instance (t : Text) (m : Match Cell (ExportedVariable Cell)) : Decidable (ExportApart t m) :=
  inferInstanceAs (Decidable (_ ∧ _))

/-- No block comment goes on into the line of an exported variable of the script, or behind it. -/
def ExportsApart (t : Text) : Prop := ∀ m ∈ exportedVariables t, ExportApart t m

instance (t : Text) : Decidable (ExportsApart t) :=
  inferInstanceAs (Decidable (∀ m ∈ exportedVariables t, _))

theorem ExportLine.modeAt_line {t : Text} {m : Match Cell (ExportedVariable Cell)}
    {a rest : List Cell} (h : ExportLine t m a rest) (hapart : ExportApart t m) :
    modeAt t m.start = .start := by
  obtain ⟨inComment, hmode⟩ := mode_at_line h.front
  have hstart : modeAt t m.start = .ofLine inComment := by
    rw [h.start, modeAt, take_stretch h.cells_eq, hmode]
  have hblock := hapart.1
  rw [hstart, Mode.inBlock_ofLine] at hblock
  rw [hstart, hblock]
  rfl

theorem readsExport_of_mem {t : Text} {m : Match Cell (ExportedVariable Cell)}
    (hm : m ∈ exportedVariables t) (hapart : ExportApart t m) : ∃ head, ReadsExport m.value head ∧
      m.glyphs = m.value.indent ++ (head ++ (m.value.value ++ m.value.tail)) ∧
      Text.slice t m.start m.stop = exportText m.value head ∧
      modeAt t m.stop = Mode.start.after none (exportText m.value head) := by
  obtain ⟨a', rest', hline⟩ := exportLine_of_mem hm
  obtain ⟨a, rest, hcells, hstart, happ⟩ :=
    Pattern.applies_of_mem_findAll advances_exportedVariable hm
  obtain ⟨-, hbehind, hindent, hvalue, hfirst, hlast, htail, head, hhead, e⟩ :=
    exportedVariable_eq_some happ
  have hglyphs : m.glyphs = m.value.indent ++ (head ++ (m.value.value ++ m.value.tail)) := by
    refine (List.append_left_inj rest).mp ?_
    rw [e]
    simp only [List.append_assoc]
  have hmode := hline.modeAt_line hapart
  have hhead' := hline.head?_behind
  have hslice : Text.slice t m.start m.stop = exportText m.value head := by
    rw [Match.stop, hstart, slice_stretch hcells, hglyphs]
    rfl
  have hafter : modeAt t m.stop = Mode.start.after none (exportText m.value head) := by
    have hle : m.start ≤ m.stop := Nat.le_add_right ..
    rw [modeAt_slice t hle, hmode, hslice]
    rcases hhead' with e | e
    · rw [e]
    · rw [e, after_newline_ahead]
  have hlands : Lands (modeAt t m.stop) (t.drop m.stop).head? :=
    .inr ⟨settled_modeAt hhead', hapart.2, hhead'⟩
  have hdrop : t.drop m.stop = writtenText rest := by
    rw [Match.stop, hstart, ← List.length_append, drop_stretch (by rw [hcells, List.append_assoc])]
  refine ⟨head, ⟨?_, hafter ▸ hapart.2, hindent, hhead, fun c hc => (hvalue c hc).2, hfirst, hlast,
    htail⟩, hglyphs, hslice, hafter⟩
  rw [hstart] at hmode
  rw [hdrop, Match.stop, hstart] at hlands
  rw [exportText, ← hglyphs]
  exact cells_stretch hcells hmode hlands

/-- Declaring an exported variable that stands apart leaves the rest of the script as it is read. -/
theorem sound_exportEdit {t : Text} {m : Match Cell (ExportedVariable Cell)}
    (hm : m ∈ exportedVariables t) (hapart : ExportApart t m) (v : ScriptVersion) :
    Edit.Sound t (exportEdit v m) := by
  obtain ⟨a, rest, h⟩ := exportLine_of_mem hm
  obtain ⟨head, hreads, -⟩ := readsExport_of_mem hm hapart
  have hstart := h.modeAt_line hapart
  have hafter := (hreads.mask_replacement v).2
  refine ⟨.inl hstart, .inl hstart, .inl ?_,
    .inr ⟨settled_modeAt h.head?_behind, hapart.2, h.head?_behind⟩, ?_, .inl (.inl hafter)⟩
  · -- The line begins behind a newline.
    rw [exportEdit, h.start, take_stretch h.cells_eq]
    intro e
    exact absurd (h.front _ e) (by decide)
  · rw [exportEdit]
    rcases h.head?_behind with e | e
    · rw [e]
      exact ⟨rfl, rfl⟩
    · rw [e]
      exact (readsAlike_newline .start _).symm

end Repair

end PineTools
