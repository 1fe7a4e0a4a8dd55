import PineTools.Proofs.Convert.Statements
import PineTools.Proofs.Scan.Respelling

/-! The lines of a conversion as lines that are respelt. A keyword gives way to another, a
definition gets the mark of methods or loses it; the mark takes along what stands between it and
what it marks. -/
namespace PineTools.Convert

open Mode

section Words

variable {line : ScriptLine} {indent b : List Cell} {x y : Cell}

/-- Behind the indentation of a line a word is put, or one takes the place of another. -/
theorem respells_word (hline : line.IsRead) {old new : Text}
    (hcells : line.cells = indent ++ (old.map codeCell ++ y :: b))
    (hindent : ∀ g ∈ indent, Text.isBlank (Glyph.seen g) = true)
    (hfirst : ∀ g, (old.map codeCell ++ y :: b).head? = some g →
    Text.isWordOrDot (Glyph.seen g) = true) (hold : ∀ c ∈ old, Tame c) (hnew : CodeWord new) :
    Respells line (writtenText indent ++ (new ++ writtenText (y :: b))) [⟨old, new⟩] := by
  have hwritten : writtenText (old.map codeCell ++ y :: b) = old ++ y.char :: writtenText b := by
    rw [writtenText_append, writtenText_codeCells]
    rfl
  have htext : line.text = writtenText indent ++ (old ++ y.char :: writtenText b) := by
    rw [← hwritten, ← writtenText_append, ← hcells]
    rfl
  refine .swapped htext ?_ (after_tame hold _) hnew.tame fun d hd => ?_
  · change (Mode.ofLine line.inComment).after (old ++ y.char :: writtenText b).head?
      (writtenText indent) = .start
    rw [← hwritten]
    cases hrest : old.map codeCell ++ y :: b with
    | nil => exact absurd hrest (List.append_ne_nil_of_right_ne_nil _ (List.cons_ne_nil y b))
    | cons x rest =>
      rw [hrest] at hcells hfirst
      exact (code_behind_blank (hline.cells_eq.symm.trans hcells)
        (fun g hg => hindent g (List.mem_of_getLast? hg)) (hfirst x rfl)).2.2
  · rw [List.head?_append, Option.or_of_isSome (List.isSome_head?.mpr hnew.ne_nil)] at hd
    exact ⟨(hnew.tame d (List.mem_of_head? hd)).1, fun e => hnew.star (e ▸ hd)⟩

theorem respells_keyword (hline : line.IsRead) {old new : Text} (hold : Repair.IsName old)
    (hnew : Repair.IsName new) (hcells : line.cells = indent ++ (old.map codeCell ++ y :: b))
    (hindent : ∀ g ∈ indent, Text.isBlank (Glyph.seen g) = true) :
    Respells line (writtenText indent ++ (new ++ writtenText (y :: b))) [⟨old, new⟩] := by
  refine respells_word hline hcells hindent (fun g hg => ?_) hold.tame hnew.codeWord
  cases old with
  | nil => exact absurd rfl hold.1
  | cons c old =>
    obtain rfl : codeCell c = g := Option.some.inj hg
    rw [seen_codeCell]
    exact hold.2 c List.mem_cons_self

theorem mark_in_code (hline : line.IsRead) {mark : List Cell}
    (hcells : line.cells = indent ++ (mark ++ x :: b))
    (hindent : ∀ g ∈ indent, Text.isBlank (Glyph.seen g) = true)
    (hx : Text.isWordOrDot (Glyph.seen x) = true) (hmark : methodMark (mark ++ x :: b) =
      some (mark, x :: b)) :
    ∃ k more, mark = k :: more ∧ (Mode.ofLine line.inComment).after (some k.char)
    (writtenText indent) = .start ∧
      (Mode.ofLine line.inComment).after (some x.char) (writtenText (indent ++ mark)) = .start ∧
      Quiet x.char := by
  obtain ⟨-, keyword, gap, rfl, hseen, hne, hgap⟩ := methodMark_eq_some hmark
  have hread := hline.cells_eq.symm.trans hcells
  cases keyword with
  | nil => cases hseen
  | cons k keyword =>
    have hk : Text.isWordOrDot (Glyph.seen k) = true := by
      have hk : Glyph.seen k = 'm' := (List.cons.inj hseen).1
      rw [hk]
      decide
    have hbegins := (code_behind_blank (x := k) (b := keyword ++ gap ++ x :: b) hread
      (fun g hg => hindent g (List.mem_of_getLast? hg)) hk).2.2
    -- What stands behind the mark is code, since a blank comes before it.
    obtain ⟨hcode, -, hlands⟩ := code_behind_blank (a := indent ++ (k :: keyword ++ gap))
        (x := x) (b := b)
      (hread.trans (List.append_assoc _ _ _).symm) (fun g hg => by
        rw [← List.append_assoc, List.getLast?_append,
          Option.or_of_isSome (List.getLast?_isSome.mpr hne)] at hg
        exact hgap g (List.mem_of_getLast? hg)) hx
    have hmasked : Glyph.seen x = x.char := Cell.masked_of_code hcode
    rw [hmasked] at hx
    obtain ⟨htame, hstar⟩ := Repair.tame_of_isWordOrDot hx
    exact ⟨k, keyword ++ gap, rfl, hbegins, hlands, htame.1, hstar⟩

theorem respells_mark (hline : line.IsRead) {mark : List Cell}
    (hcells : line.cells = indent ++ (mark ++ x :: b))
    (hindent : ∀ g ∈ indent, Text.isBlank (Glyph.seen g) = true)
    (hx : Text.isWordOrDot (Glyph.seen x) = true) (hmark : methodMark (mark ++ x :: b) =
      some (mark, x :: b)) :
    Respells line (writtenText indent ++ writtenText (x :: b)) [⟨writtenText mark, []⟩] := by
  obtain ⟨k, more, rfl, hbegins, hlands, hquiet⟩ := mark_in_code hline hcells hindent hx hmark
  have htext : line.text = writtenText indent ++
      (writtenText (k :: more) ++ x.char :: writtenText b) := by
    rw [ScriptLine.text, hcells]
    exact (writtenText_append indent _).trans (congrArg _ (writtenText_append _ _))
  refine @Respells.swapped line _ _ [] _ _ htext hbegins ?_ (List.forall_mem_nil _) fun d hd => ?_
  · rw [writtenText_append, after_append] at hlands
    have hhead : (writtenText (k :: more)).head?.or (some x.char) = some k.char := rfl
    rw [hhead, hbegins] at hlands
    exact hlands
  · exact Option.some.inj hd ▸ hquiet

end Words

section Lines

variable {line : ScriptLine}

theorem respells_freezeLine (reassigned : List Cell → Bool) (hline : line.IsRead) :
    ∃ swaps, Respells line (freezeLine reassigned line) swaps ∧ ∀ s ∈ swaps,
      notes s.new = notes s.old := by
  rcases freezeLine_cases reassigned hline with e | ⟨indent, y, gap, x, b, hcells, hindent, -, -, e⟩
  · rw [e]
    exact ⟨[], .kept, fun _ hs => absurd hs List.not_mem_nil⟩
  · rw [e]
    refine ⟨_, respells_keyword hline isName_var isName_let hcells hindent,
      List.forall_mem_singleton.mpr ?_⟩
    rw [notes_tame isName_var.tame, notes_tame isName_let.tame]

theorem respells_keywordLine {old new : String} (hold : Repair.IsName old.toList)
    (hnew : Repair.IsName new.toList) (hline : line.IsRead) :
    (leadingKeyword old none line.cells = none ∧ Respells line (keywordLine old new line) []) ∨
      Respells line (keywordLine old new line) [⟨old.toList, new.toList⟩] := by
  cases h : leadingKeyword old none line.cells with
  | none =>
    rw [keywordLine_of_none hold new hline h]
    exact .inl ⟨rfl, .kept⟩
  | some r =>
    obtain ⟨k, rest⟩ := r
    obtain ⟨hcells, hindent, e⟩ := keywordLine_of_some hold new hline h
    obtain ⟨-, -, -, g, gs, rfl, -⟩ := leadingKeyword_eq_some h
    rw [e]
    exact .inr (respells_keyword hline hold hnew hcells hindent)

theorem respells_markLine (hline : line.IsRead) :
    ∃ swaps, Respells line (markLine line) swaps ∧ ∀ s ∈ swaps, notes s.new = notes s.old := by
  have hkept (e : markLine line = line.text) :
      ∃ swaps, Respells line (markLine line) swaps ∧ ∀ s ∈ swaps, notes s.new = notes s.old := by
    rw [e]
    exact ⟨[], .kept, fun _ hs => absurd hs List.not_mem_nil⟩
  cases h : functionDefinition none line.cells with
  | none => exact hkept (markLine_of_none hline h)
  | some r =>
    obtain ⟨d, rest⟩ := r
    cases hmethod : d.method with
    | some mark => exact hkept (markLine_of_marked hline h hmethod)
    | none =>
      obtain ⟨x, b, hcells, hindent, hx, e⟩ := markLine_of_some hline h hmethod
      rw [e]
      refine ⟨_, @respells_word _ _ _ _ hline [] _ hcells hindent (fun g hg => ?_)
        (List.forall_mem_nil _)
        codeWord_method, List.forall_mem_singleton.mpr rfl⟩
      obtain rfl : x = g := Option.some.inj hg
      exact isWordOrDot_of_isWord hx

end Lines

section Marks

variable {line : ScriptLine} {indent b rest : List Cell}

def marks (line : ScriptLine) : List Text :=
  match functionDefinition none line.cells with
  | some (d, _) => (d.method.map writtenText).toList
  | none => []

/-- No comment stands between the keyword of a method and what it marks. -/
def MarksClear (line : ScriptLine) : Prop := ∀ m ∈ marks line, notes m = []

instance (line : ScriptLine) :
    Decidable (MarksClear line) :=
    inferInstanceAs (Decidable (∀ m : Text, m ∈ marks line → notes m = []))

theorem marks_eq_nil (h : ∀ d rest, functionDefinition none line.cells = some (d, rest) → d.method =
    none) : marks line = [] := by
  rw [marks]
  split
  · next d rest hfind => rw [h d rest hfind]; rfl
  · rfl

/-- Where another word begins a line no method is marked. -/
theorem method_eq_none {w : Text} (hindent : ∀ g ∈ indent, Text.isBlank (Glyph.seen g) = true)
    (hne : w ≠ []) (hblank : w.head?.any Text.isBlank = false) (hw : w.head? ≠ some 'm')
    {d : FunctionDefinition Cell} (h : functionDefinition none (indent ++ (w.map codeCell ++ b)) =
      some (d, rest)) : d.method = none := by
  obtain ⟨body, -, e, hindent', hmark, -⟩ := functionDefinition_eq_some h
  refine Option.eq_none_iff_forall_ne_some.mpr fun m hm => ?_
  obtain ⟨-, keyword, gap, rfl, hseen, -⟩ := methodMark_eq_some (hmark m hm)
  rw [hm, Option.getD_some] at e
  cases keyword with
  | nil => cases hseen
  | cons k keyword =>
    have hk : Glyph.seen k = 'm' := (List.cons.inj hseen).1
    have hblanks := blanks_word (b := b) hindent hne hblank
    rw [e, List.append_assoc, List.cons_append,
      blanks_append hindent' (by rw [hk]; decide : Text.isBlank (Glyph.seen k) = false)] at hblanks
    cases w with
    | nil => exact hne rfl
    | cons c w =>
      have hsame : k = codeCell c := (List.cons.inj (Prod.mk.inj (Option.some.inj hblanks)).2).1
      rw [hsame, seen_codeCell] at hk
      exact hw (congrArg some hk)

theorem unmarkLine_of_var (hline : line.IsRead)
    (hcells : line.cells = indent ++ ("var".toList.map codeCell ++ b))
    (hindent : ∀ g ∈ indent, Text.isBlank (Glyph.seen g) = true) : unmarkLine line = line.text := by
  refine unmarkLine_of_none hline fun d rest hfind => ?_
  rw [hcells] at hfind
  exact method_eq_none hindent (by decide) (by decide) (by decide) hfind

def backwardSwaps (line : ScriptLine) : List Swap :=
  if (leadingKeyword "let" none line.cells).isSome then [⟨"let".toList, "var".toList⟩]
    else (marks line).map fun m => ⟨m, []⟩

theorem respells_unmarkLine (hline : line.IsRead) :
    Respells line (unmarkLine line) ((marks line).map fun m => ⟨m, []⟩) := by
  have hkept (h : ∀ d rest, functionDefinition none line.cells = some (d, rest) → d.method = none) :
      Respells line (unmarkLine line) ((marks line).map fun m => ⟨m, []⟩) := by
    rw [unmarkLine_of_none hline h, marks_eq_nil h]
    exact .kept
  cases h : functionDefinition none line.cells with
  | none => exact hkept fun d rest e => by rw [h] at e; cases e
  | some r =>
    obtain ⟨d, rest⟩ := r
    cases hmethod : d.method with
    | none => exact hkept fun d' rest' e => by rw [h] at e; cases e; exact hmethod
    | some mark =>
      obtain ⟨body, typed, hcells, hindent, hmark, hplain⟩ := functionDefinition_eq_some h
      obtain ⟨-, -, -, x, b, rfl, hx⟩ := plainDefinition_eq_some hplain
      rw [hmethod, Option.getD_some] at hcells
      have hmarks : marks line = [writtenText mark] := by
        rw [marks, h]
        simp only [hmethod, Option.map_some, Option.toList_some]
      rw [unmarkLine_of_some hline h hmethod hcells, hmarks]
      exact respells_mark hline hcells hindent (isWordOrDot_of_isWord hx) (hmark mark hmethod)

theorem respells_backwardLine (hline : line.IsRead) :
    Respells line (backwardLine line) (backwardSwaps line) := by
  rw [backwardLine, backwardSwaps]
  cases h : leadingKeyword "let" none line.cells with
  | none =>
    rw [reread_of_text hline (keywordLine_of_none isName_let "var" hline h)]
    exact respells_unmarkLine hline
  | some r =>
    obtain ⟨k, rest⟩ := r
    obtain ⟨hcells, hindent, e⟩ := keywordLine_of_some isName_let "var" hline h
    obtain ⟨-, -, -, g, gs, rfl, -⟩ := leadingKeyword_eq_some h
    have hrespelt :=
      (cells_respell hline hcells hindent ⟨_, _, rfl, by decide⟩ isName_let.tame
        isName_var.codeWord).1
    rw [← e] at hrespelt
    have hkept : unmarkLine (reread (keywordLine "let" "var") line) =
        keywordLine "let" "var" line := by
      rw [unmarkLine_of_var ((keeps_keywordLine isName_let isName_var).isRead hline) hrespelt
        hindent, reread, ScriptLine.readLine_text]
    rw [hkept, e]
    exact respells_keyword hline isName_let isName_var hcells hindent

theorem keeps_unmarkLine : KeepsReading unmarkLine := by
  intro line hline
  exact ⟨(rewrites_dropMethod.line hline).1, (respells_unmarkLine hline).leaves_eq⟩

theorem keeps_backwardLine :
    KeepsReading backwardLine := (keeps_keywordLine isName_let isName_var).comp keeps_unmarkLine

theorem marks_of_let (hline : line.IsRead) (h : (leadingKeyword "let" none line.cells).isSome =
    true) : marks line = [] := by
  obtain ⟨⟨k, rest⟩, h⟩ := Option.isSome_iff_exists.mp h
  obtain ⟨hcells, hindent, -⟩ := keywordLine_of_some isName_let "var" hline h
  refine marks_eq_nil fun d rest hfind => ?_
  rw [hcells] at hfind
  exact method_eq_none hindent (by decide) (by decide) (by decide) hfind

theorem notes_backwardSwaps : ∀ s ∈ backwardSwaps line, notes s.new = [] := by
  intro s hs
  rw [backwardSwaps] at hs
  split at hs
  · rw [List.mem_singleton.mp hs]
    exact notes_tame isName_var.tame
  · obtain ⟨m, -, rfl⟩ := List.mem_map.mp hs
    rfl

/-- It takes away none if no comment stands between the keyword of a method and what it marks. -/
theorem backwardSwaps_clear (hline : line.IsRead) :
    (∀ s ∈ backwardSwaps line, notes s.old = []) ↔ MarksClear line := by
  rw [backwardSwaps, MarksClear]
  split
  · next h =>
    rw [marks_of_let hline h, List.forall_mem_singleton]
    exact iff_of_true (notes_tame isName_let.tame) (List.forall_mem_nil _)
  · exact List.forall_mem_map

end Marks

end PineTools.Convert
