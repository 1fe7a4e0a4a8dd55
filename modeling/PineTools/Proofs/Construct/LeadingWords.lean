import PineTools.Proofs.Construct.FirstWord
import PineTools.Proofs.Repair.Renames
import PineTools.Proofs.Scan.Places
import PineTools.Proofs.Scan.Rewriting

/-! Words behind the indentation of a line. Such a word is code, and another may be written in its
place: what follows is read as before. Which word it is decides what a statement is read as, so a
line that begins with one keyword is not taken for a statement that begins with another. -/
namespace PineTools

open Reader Mode

section Cells

variable {line : ScriptLine} {indent b : List Cell}

theorem seen_codeCell (c : Char) : Glyph.seen (codeCell c) = c := codeCell_masked c

structure CodeWord (w : Text) : Prop where
  tame : ∀ c ∈ w, Tame c
  ne_nil : w ≠ []
  star : w.head? ≠ some '*'

theorem Repair.IsName.codeWord {w : Text} (h : IsName w) : CodeWord w := by
  refine ⟨h.tame, h.1, fun e => ?_⟩
  have := h.2 '*' (List.mem_of_mem_head? e)
  exact absurd this (by decide)

/-- Behind the indentation of a line there is code, and another word may be written in the place of
one that stands there. -/
theorem cells_respell (hline : line.IsRead) {old new : Text}
    (hcells : line.cells = indent ++ (old.map codeCell ++ b))
    (hindent : ∀ g ∈ indent, Text.isBlank (Glyph.seen g) = true)
    (hfirst : ∃ x rest, old.map codeCell ++ b = x :: rest ∧ Text.isWordOrDot (Glyph.seen x) = true)
    (hold : ∀ c ∈ old, Tame c) (hnew : CodeWord new) :
    cellsFrom (.ofLine line.inComment) (writtenText indent ++ (new ++ writtenText b)) = indent ++
      (new.map codeCell ++ b) ∧
      line.leaves (writtenText indent ++ (new ++ writtenText b)) = line.leaves line.text := by
  obtain ⟨x, rest, hx, hword⟩ := hfirst
  have hread : cellsFrom (.ofLine line.inComment) line.text = indent ++ x :: rest := by
    rw [← hline.cells_eq, hcells, hx]
  obtain ⟨hcode, hn, hmode⟩ :=
    code_behind_blank hread (fun y hy => hindent y (List.mem_of_getLast? hy)) hword
  obtain ⟨hnewcells, hnewafter⟩ := cellsFrom_word hread hn hcode hnew.tame hnew.ne_nil hnew.star
    (writtenText b)
  obtain ⟨htext, -, hbehind⟩ := cellsFrom_at hread
  have hwritten : x.char :: writtenText rest = old ++ writtenText b := by
    have := congrArg writtenText hx
    rw [writtenText_append, writtenText_codeCells] at this
    exact this.symm
  -- What stands behind the old word is read in code too.
  obtain ⟨hb, hafter⟩ : cellsFrom (.code false) (writtenText b) = b ∧
      (Mode.code false).after none (old ++ writtenText b) = (Mode.code false).after none
        (writtenText b) := by
    rw [hmode, hwritten, ← hx] at hbehind
    cases old with
    | nil => exact ⟨hbehind, rfl⟩
    | cons c old =>
      obtain ⟨holdcells, holdafter⟩ := read_tame hold (List.cons_ne_nil c old) false (writtenText b)
      rw [holdcells] at hbehind
      exact ⟨List.append_cancel_left hbehind, holdafter none⟩
  refine ⟨by rw [hnewcells, hb], ?_⟩
  rw [ScriptLine.leaves, ScriptLine.leaves, hnewafter, htext, hwritten, after_append, ← hwritten,
    List.head?_cons, Option.some_or, hmode, hwritten, hafter]

theorem eq_codeCells (hline : line.IsRead) {keyword : List Cell} {g : Cell}
    (hcells : line.cells = indent ++ (keyword ++ g :: b)) {w : Text} (hw : Repair.IsName w)
    (hseen : seenText keyword = w) (hg : Text.isBlank (Glyph.seen g) = true) :
    keyword = w.map codeCell := by
  have hread := hline.cells_eq.symm.trans hcells
  have hmem {y : Cell} (hy : y ∈ keyword ++ g :: b) :
      y ∈ cellsFrom (.ofLine line.inComment) line.text := by
    rw [hread]
    exact List.mem_append_right indent hy
  obtain ⟨hn, hlit⟩ := region_of_blank (hmem (List.mem_append_right keyword List.mem_cons_self)) hg
  have hcode :=
    code_of_name hread (fun y hy => hw.2 _ (hseen ▸ List.mem_map_of_mem (f := Glyph.seen) hy)) hn
      hlit
  rw [← hseen, seenText, List.map_map]
  refine ((List.map_congr_left fun y hy => ?_).trans (List.map_id keyword)).symm
  have hmasked : Glyph.seen y = y.char := Cell.masked_of_code (hcode y hy)
  rw [Function.comp_apply, hmasked]
  exact (eq_codeCell (hmem (List.mem_append_left _ hy)) (hcode y hy)).symm

end Cells

section Readers

variable {indent gap b : List Cell} {x : Cell}

theorem blanks_append (hindent : ∀ g ∈ indent, Text.isBlank (Glyph.seen g) = true)
    (hx : Text.isBlank (Glyph.seen x) = false) :
    blanks (indent ++ x :: b) = some (indent, x :: b) :=
  run_append hindent fun _ hg => Option.some.inj hg ▸ hx

theorem blanks_word (hindent : ∀ g ∈ indent, Text.isBlank (Glyph.seen g) = true) {w : Text}
    (hne : w ≠ []) (hw : w.head?.any Text.isBlank = false) :
    blanks (indent ++ (w.map codeCell ++ b)) = some (indent, w.map codeCell ++ b) := by
  cases w with
  | nil => exact absurd rfl hne
  | cons c w => exact blanks_append hindent ((seen_codeCell c).symm ▸ hw)

theorem leadingKeyword_of_word {w : String} (hw : Repair.IsName w.toList)
    (hindent : ∀ g ∈ indent, Text.isBlank (Glyph.seen g) = true)
    (hx : Text.isBlank (Glyph.seen x) = true) :
    leadingKeyword w none (indent ++ (w.toList.map codeCell ++ x :: b)) =
      some (⟨indent, w.toList.map codeCell⟩, x :: b) := by
  have hblanks : blanks (indent ++ (w.toList.map codeCell ++ x :: b)) =
      some (indent, w.toList.map codeCell ++ x :: b) :=
    blanks_word hindent hw.1 ((Option.any_eq_false _ _).mpr fun c hc =>
      (not_blank_of_isWordOrDot (hw.2 c (List.mem_of_mem_head? hc))).1)
  have hone : run1 Text.isBlank (x :: b) =
    some ((x :: b).takeWhile fun g => Text.isBlank (Glyph.seen g),
      (x :: b).dropWhile fun g => Text.isBlank (Glyph.seen g)) := by
    refine run1_eq_some.mpr ⟨?_, rfl⟩
    rw [List.takeWhile_cons, if_pos hx]
    exact List.cons_ne_nil _ _
  refine bind_eq_some.mpr
    ⟨indent, _, hblanks, bind_eq_some.mpr ⟨w.toList.map codeCell, x :: b, ?_, ?_⟩⟩
  · exact exactly_eq_some.mpr ⟨rfl, seenText_codeCells _⟩
  · exact bind_eq_some.mpr
      ⟨(), x :: b, ahead_eq_some.mpr ⟨Option.isSome_iff_exists.mpr ⟨_, hone⟩, rfl⟩, rfl⟩

/-- No keyword is met behind the indentation where another word begins. -/
theorem leadingKeyword_of_other {w : String} {u : Text}
    (hindent : ∀ g ∈ indent, Text.isBlank (Glyph.seen g) = true) (hu : u ≠ [])
    (hblank : u.head?.any Text.isBlank = false) (hw : w.toList ≠ [])
    (hother : u.head? ≠ w.toList.head?) :
    leadingKeyword w none (indent ++ (u.map codeCell ++ b)) = none := by
  refine Option.eq_none_iff_forall_ne_some.mpr fun ⟨v, rest⟩ h => ?_
  obtain ⟨indent', rest₁, hindent', h⟩ := bind_eq_some.mp h
  obtain ⟨keyword, rest₂, hkeyword, -⟩ := bind_eq_some.mp h
  cases (blanks_word hindent hu hblank).symm.trans hindent'
  obtain ⟨e, hseen⟩ := exactly_eq_some.mp hkeyword
  cases u with
  | nil => exact hu rfl
  | cons c u =>
    cases keyword with
    | nil => exact hw hseen.symm
    | cons y keyword =>
      obtain ⟨rfl, -⟩ := List.cons.inj e
      refine hother ?_
      rw [← hseen, seenText, List.map_cons, seen_codeCell]
      rfl

theorem methodMark_of_word (hx : Text.isBlank (Glyph.seen x) = false) :
    methodMark ("method ".toList.map codeCell ++ x :: b) =
      some ("method ".toList.map codeCell, x :: b) := by
  have hsplit : "method ".toList.map codeCell = "method".toList.map codeCell ++ [codeCell ' '] :=
    rfl
  have hword : word "method" ("method".toList.map codeCell ++ ([codeCell ' '] ++ x :: b)) =
      some ("method".toList.map codeCell, [codeCell ' '] ++ x :: b) :=
    exactly_eq_some.mpr ⟨rfl, seenText_codeCells _⟩
  have hgap : blanks1 ([codeCell ' '] ++ x :: b) = some ([codeCell ' '], x :: b) :=
    run1_eq_some.mpr ⟨List.cons_ne_nil _ _, blanks_append (by decide) hx⟩
  rw [hsplit, List.append_assoc]
  exact bind_eq_some.mpr
    ⟨_, _, hword, bind_eq_some.mpr ⟨_, _, bind_eq_some.mpr ⟨_, _, hgap, rfl⟩, rfl⟩⟩

theorem plainDefinition_mark {method : Option (List Cell)} {typed : Bool} {gs rest : List Cell}
    {d : FunctionDefinition Cell} (h : plainDefinition indent method typed gs = some (d, rest))
    (mark : List Cell) :
    plainDefinition indent (some mark) typed gs = some ({ d with method := some mark }, rest) := by
  cases typed with
  | true =>
    obtain ⟨type, rest₁, htype, h⟩ := bind_eq_some.mp h
    obtain ⟨v, rest₂, hname, h⟩ := bind_eq_some.mp h
    cases pure_eq_some.mp h
    exact bind_eq_some.mpr ⟨type, rest₁, htype, bind_eq_some.mpr ⟨v, _, hname, rfl⟩⟩
  | false =>
    obtain ⟨v, rest₂, hname, h⟩ := bind_eq_some.mp h
    cases pure_eq_some.mp h
    exact bind_eq_some.mpr ⟨v, _, hname, rfl⟩

theorem functionDefinition_mark {rest body : List Cell} {d : FunctionDefinition Cell}
    (h : functionDefinition none (d.indent ++ x :: body) = some (d, rest))
    (hmethod : d.method = none) (hindent : ∀ g ∈ d.indent, Text.isBlank (Glyph.seen g) = true)
    (hx : Text.isWord (Glyph.seen x) = true) : ∃ d' rest',
      functionDefinition none (d.indent ++ ("method ".toList.map codeCell ++ x :: body)) =
        some (d', rest') ∧
        d'.indent = d.indent ∧ d'.method = some ("method ".toList.map codeCell) := by
  obtain ⟨body', typed, e, -, -, hplain⟩ := functionDefinition_eq_some h
  rw [hmethod, Option.getD_none, List.nil_append] at e
  obtain rfl := List.append_cancel_left e
  have hblanks : blanks (d.indent ++ ("method ".toList.map codeCell ++ x :: body)) =
      some (d.indent, "method ".toList.map codeCell ++ x :: body) :=
    blanks_word hindent (by decide) (by decide)
  have hxblank : Text.isBlank (Glyph.seen x) = false :=
    (not_blank_of_isWordOrDot (isWordOrDot_of_isWord hx)).1
  have hmark := methodMark_of_word (b := body) hxblank
  generalize "method ".toList.map codeCell = mark at hblanks hmark ⊢
  have hmarked (typed : Bool) : (methodMark >>= fun m => plainDefinition d.indent (some m) typed)
    (mark ++ x :: body) =
      plainDefinition d.indent (some mark) typed (x :: body) := by
    change (methodMark _).bind (fun p => plainDefinition d.indent (some p.1) typed p.2) = _
    rw [hmark]
    rfl
  have hplain := plainDefinition_mark hplain mark
  obtain ⟨typed', d', rest', hfirst, hfound⟩ : ∃ typed' d' rest',
      plainDefinition d.indent (some mark) typed' (x :: body) = some (d', rest') ∧
        functionDefinition none (d.indent ++ (mark ++ x :: body)) = some (d', rest') := by
    cases htyped : plainDefinition d.indent (some mark) true (x :: body) with
    | some r =>
      refine ⟨true, r.1, r.2, htyped, ?_⟩
      rw [functionDefinition_none_eq]
      exact bind_eq_some.mpr
        ⟨_, _, hblanks, orElse_eq_some.mpr (.inl ((hmarked true).trans htyped))⟩
    | none =>
      cases typed with
      | true =>
        rw [htyped] at hplain
        cases hplain
      | false =>
        refine ⟨false, _, _, hplain, ?_⟩
        rw [functionDefinition_none_eq]
        exact bind_eq_some.mpr
          ⟨_, _, hblanks,
            orElse_eq_some.mpr
            (.inr ⟨(hmarked true).trans htyped,
            orElse_eq_some.mpr (.inl ((hmarked false).trans hplain))⟩)⟩
  obtain ⟨hindent', hmethod', -⟩ := plainDefinition_eq_some hfirst
  exact ⟨d', rest', hfound, hindent', hmethod'⟩

end Readers

end PineTools
