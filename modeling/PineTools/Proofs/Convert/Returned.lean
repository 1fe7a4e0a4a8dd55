import PineTools.Proofs.Convert.Forward
import PineTools.Proofs.Convert.Respelt
import PineTools.Proofs.Scan.Balance
import PineTools.Proofs.Validate.Acceptance

/-! What the masked lines of a script look like after the step to the newest version and the step
back. A leading keyword may have become `var`, and a definition has lost the mark of methods,
whether the first step gave it or the script had it. -/
namespace PineTools.Convert

open Reader Mode

/-- A line of code without the mark of the method that it defines. -/
def unmarked (code : Text) : Text :=
  match functionDefinition.readAt? code with
  | some d => d.indent ++ code.drop (d.indent.length + (d.method.getD []).length)
  | none => code

section Unmarked

variable {code : Text}

theorem unmarked_of_some {d : FunctionDefinition Char}
    (h : functionDefinition.readAt? code = some d) :
    ∃ body typed rest, code = d.indent ++ (d.method.getD [] ++ body) ∧ unmarked code =
      d.indent ++ body ∧
      (∀ c ∈ d.indent, Text.isBlank c = true) ∧
      (∀ m, d.method = some m → methodMark (m ++ body) = some (m, body)) ∧
      plainDefinition d.indent d.method typed body = some (d, rest) := by
  obtain ⟨rest, hread⟩ := readAt?_eq_some h
  obtain ⟨body, typed, e, hindent, hmark, hplain⟩ := functionDefinition_eq_some hread
  refine ⟨body, typed, rest, e, ?_, hindent, hmark, hplain⟩
  rw [unmarked, h]
  dsimp only
  rw [← List.length_append, e, ← List.append_assoc, List.drop_left' rfl]

theorem unmarked_of_none (h : ∀ d, functionDefinition.readAt? code = some d → d.method = none) :
    unmarked code = code := by
  cases hread : functionDefinition.readAt? code with
  | none => rw [unmarked, hread]
  | some d =>
    obtain ⟨body, -, -, e, e', -⟩ := unmarked_of_some hread
    rw [h d hread, Option.getD_none, List.nil_append] at e
    exact e'.trans e.symm

/-- A line that does not begin with the keyword of methods is kept. -/
theorem unmarked_of_firstWord (h : firstWord code ≠ "method".toList) : unmarked code = code :=
  unmarked_of_none fun _ hd => Classical.not_not.mp fun hmethod =>
    h (firstWord_of_method hd hmethod)

end Unmarked

section Marks

variable {line : ScriptLine} {indent mark b : List Cell} {x : Cell}

theorem cells_unmarked (hline : line.IsRead) (hcells : line.cells = indent ++ (mark ++ x :: b))
    (hindent : ∀ g ∈ indent, Text.isBlank (Glyph.seen g) = true)
    (hx : Text.isWord (Glyph.seen x) = true) (hmark : methodMark (mark ++ x :: b) =
      some (mark, x :: b)) :
    cellsFrom (.ofLine line.inComment) (writtenText indent ++ writtenText (x :: b)) = indent ++
      x :: b := by
  obtain ⟨k, more, rfl, hbegins, hlands, hquiet⟩ :=
    mark_in_code hline hcells hindent (isWordOrDot_of_isWord hx) hmark
  have hread := hline.cells_eq.symm.trans hcells
  obtain ⟨-, hfront, -⟩ := cellsFrom_at (a := indent) (x := k) (b := more ++ x :: b) hread
  obtain ⟨-, -, hbehind⟩ := cellsFrom_at (hread.trans (List.append_assoc _ _ _).symm)
  have halike : ReadsAlike (.ofLine line.inComment) (writtenText indent) (some k.char)
      (some x.char) :=
    readsAlike_of_code hbegins (.inr fun c hc => Option.some.inj hc ▸ hquiet)
  rw [cellsFrom_append]
  change cellsUpTo _ (some x.char) _ ++
    cellsFrom ((Mode.ofLine line.inComment).after (some x.char) _) _ = _
  rw [← halike.1, hfront, ← halike.2, hbegins, ← hlands]
  exact congrArg _ hbehind

theorem masked_unmark (hline : line.IsRead) :
    (reread unmarkLine line).masked = unmarked line.masked := by
  have hseen := readAt?_seen seesAs_functionDefinition line.cells
  rw [← masked_eq_seenText] at hseen
  cases h : functionDefinition none line.cells with
  | none =>
    rw [readAt?_of_none h] at hseen
    rw [reread_of_text hline (unmarkLine_of_none hline fun d rest hd => by rw [h] at hd; cases hd),
      unmarked, hseen]
    rfl
  | some r =>
    obtain ⟨d, rest⟩ := r
    rw [readAt?_of_some h] at hseen
    obtain ⟨body, typed, hcells, hindent, hmark, hplain⟩ := functionDefinition_eq_some h
    obtain ⟨-, -, -, x, b, rfl, hx⟩ := plainDefinition_eq_some hplain
    cases hmethod : d.method with
    | none =>
      have hkept : unmarkLine line = line.text := unmarkLine_of_none hline fun d' rest' hd => by
        obtain ⟨rfl, -⟩ := Prod.mk.inj (Option.some.inj (h.symm.trans hd))
        exact hmethod
      rw [reread_of_text hline hkept, unmarked_of_none fun d' hd => ?_]
      obtain rfl := Option.some.inj (hseen.symm.trans hd)
      exact congrArg (Option.map seenText) hmethod
    | some mark =>
      rw [hmethod, Option.getD_some] at hcells
      have hcode : line.masked = seenText d.indent ++ seenText mark ++ seenText (x :: b) := by
        rw [masked_eq_seenText, hcells, seenText_append, seenText_append, List.append_assoc]
      have hlength : d.seen.indent.length + (d.seen.method.getD []).length =
          (seenText d.indent ++ seenText mark).length := by
        rw [List.length_append]
        exact congrArg (fun m => (seenText d.indent).length + (m.getD []).length)
          (congrArg (Option.map seenText) hmethod)
      rw [masked_eq_seenText, reread, ScriptLine.readLine_cells,
        unmarkLine_of_some hline h hmethod hcells, cells_unmarked hline hcells hindent hx
          (hmark mark hmethod), unmarked, hseen]
      change _ = seenText d.indent ++
        line.masked.drop (d.seen.indent.length + (d.seen.method.getD []).length)
      rw [hlength, hcode, List.drop_left' rfl, seenText_append]

end Marks

/-- What is left of a line of code: at most a mark is lost, or a leading keyword became `var`. -/
inductive Returned (code : Text) : Text → Prop
  | bare : Returned code (unmarked code)
  | respelt {w indent b : Text} {y : Char} (hw : w = "varip".toList ∨ w = "let".toList)
  (e : code = indent ++ (w ++ y :: b))
      (hindent : ∀ c ∈ indent, Text.isBlank c = true) (hy : Text.isBlank y = true) :
      Returned code (indent ++ ("var".toList ++ y :: b))

section Lines

variable {line : ScriptLine}

theorem masked_keyword {old : String} (hold : Repair.IsName old.toList) (hline : line.IsRead)
    {k : LeadingKeyword Cell} {rest : List Cell} (h : leadingKeyword old none line.cells =
      some (k, rest)) :
    ∃ y b, Text.isBlank y = true ∧ (∀ c ∈ seenText k.indent, Text.isBlank c = true) ∧
      line.masked = seenText k.indent ++ (old.toList ++ y :: b) ∧
      (reread (keywordLine old "var") line).cells = k.indent ++
        ("var".toList.map codeCell ++ rest) ∧
      (reread (keywordLine old "var") line).masked = seenText k.indent ++
        ("var".toList ++ y :: b) := by
  obtain ⟨hcells, hindent, e⟩ := keywordLine_of_some hold "var" hline h
  obtain ⟨-, -, -, y, b, rfl, hy⟩ := leadingKeyword_eq_some h
  have hfirst : ∃ x rest, old.toList.map codeCell ++ y :: b = x :: rest ∧
      Text.isWordOrDot (Glyph.seen x) = true := by
    cases hlist : old.toList with
    | nil => exact absurd hlist hold.1
    | cons c cs => exact ⟨_, _, rfl, (seen_codeCell c).symm ▸ hold.2 c (hlist ▸ List.mem_cons_self)⟩
  have hrespelt : (reread (keywordLine old "var") line).cells = k.indent ++
      ("var".toList.map codeCell ++ y :: b) := by
    rw [reread, ScriptLine.readLine_cells, e]
    exact (cells_respell hline hcells hindent hfirst hold.tame isName_var.codeWord).1
  refine ⟨Glyph.seen y, seenText b, hy, seen_blanks hindent, ?_, hrespelt, ?_⟩
  · rw [masked_eq_seenText, hcells, seenText_word]
    rfl
  · rw [masked_eq_seenText, hrespelt, seenText_word]
    rfl

/-- The step back keeps a line that begins with `var`. -/
theorem backwardLine_of_var (hline : line.IsRead) {indent b : List Cell}
    (hcells : line.cells = indent ++ ("var".toList.map codeCell ++ b))
    (hindent : ∀ g ∈ indent, Text.isBlank (Glyph.seen g) = true) :
    backwardLine line = line.text := by
  have hlet : leadingKeyword "let" none line.cells = none := by
    rw [hcells]
    exact leadingKeyword_of_other hindent (by decide) (by decide) (by decide) (by decide)
  rw [backwardLine, reread_of_text hline (keywordLine_of_none isName_let "var" hline hlet)]
  exact unmarkLine_of_var hline hcells hindent

theorem returned_backward (hline : line.IsRead) :
    Returned line.masked (reread backwardLine line).masked := by
  cases h : leadingKeyword "let" none line.cells with
  | none =>
    have hback : backwardLine line = unmarkLine line := by
      rw [backwardLine, reread_of_text hline (keywordLine_of_none isName_let "var" hline h)]
    rw [reread, hback, ← reread, masked_unmark hline]
    exact .bare
  | some r =>
    obtain ⟨k, rest⟩ := r
    obtain ⟨y, b, hy, hindent, hcode, hcells, hmasked⟩ := masked_keyword isName_let hline h
    obtain ⟨-, hindent', -⟩ := keywordLine_of_some isName_let "var" hline h
    have hback : backwardLine line = keywordLine "let" "var" line := by
      rw [backwardLine, unmarkLine_of_var ((keeps_keywordLine isName_let isName_var).isRead hline)
        hcells hindent', reread, ScriptLine.readLine_text]
    rw [reread, hback, ← reread, hmasked]
    exact .respelt (.inr rfl) hcode hindent hy

theorem returned_self (hline : line.IsRead) (h : ∀ d rest, functionDefinition none line.cells =
    some (d, rest) → d.method = none) :
    Returned line.masked line.masked := by
  have hmasked := masked_unmark hline
  rw [reread_of_text hline (unmarkLine_of_none hline h)] at hmasked
  have hself : Returned line.masked (unmarked line.masked) := .bare
  rwa [← hmasked] at hself

/-- What both steps make of a line whose declaration is not frozen. -/
theorem returned_of_kept (hline : line.IsRead) {reassigned : List Cell → Bool}
    (hkept : freezeLine reassigned line = line.text) :
    Returned line.masked
      (readLine line.inComment (backwardLine (reread (forwardLine reassigned) line))).masked := by
  have hline' := (keeps_keywordLine isName_varip isName_var).isRead hline
  have hinComment := reread_inComment (keywordLine "varip" "var") line
  rw [forward_of_kept hline hkept]
  -- A definition that gets a mark loses it again.
  have hmark {line' : ScriptLine} (hline' : line'.IsRead) : backwardLine (reread markLine line') =
    line'.text ∧
      (∀ d rest, functionDefinition none line'.cells = some (d, rest) → d.method = none) ∨
      reread markLine line' = line' := by
    cases h : functionDefinition none line'.cells with
    | none => exact .inr (reread_of_text hline' (markLine_of_none hline' h))
    | some r =>
      obtain ⟨d, rest⟩ := r
      cases hmethod : d.method with
      | none =>
        refine .inl ⟨backward_of_marked hline' h hmethod, fun d' rest' hd => ?_⟩
        obtain ⟨rfl, -⟩ := Prod.mk.inj (Option.some.inj hd)
        exact hmethod
      | some mark => exact .inr (reread_of_text hline' (markLine_of_marked hline' h hmethod))
  cases h : leadingKeyword "varip" none line.cells with
  | none =>
    rw [reread_of_text hline (keywordLine_of_none isName_varip "var" hline h)]
    rcases hmark hline with ⟨e, hmethod⟩ | e
    · rw [e, ← hline.1]
      exact returned_self hline hmethod
    · rw [e]
      exact returned_backward hline
  | some r =>
    obtain ⟨k, rest⟩ := r
    obtain ⟨y, b, hy, hindent, hcode, hcells, hmasked⟩ := masked_keyword isName_varip hline h
    obtain ⟨-, hindent', -⟩ := keywordLine_of_some isName_varip "var" hline h
    have hback : backwardLine (reread markLine (reread (keywordLine "varip" "var") line)) =
        keywordLine "varip" "var" line := by
      rcases hmark hline' with ⟨e, -⟩ | e
      · rw [e, reread, ScriptLine.readLine_text]
      · rw [e, backwardLine_of_var hline' hcells hindent', reread, ScriptLine.readLine_text]
    rw [hback, ← reread, hmasked]
    exact .respelt (.inl rfl) hcode hindent hy

theorem returned (reassigned : List Cell → Bool) (hline : line.IsRead) :
    Returned line.masked
      (readLine line.inComment (backwardLine (reread (forwardLine reassigned) line))).masked := by
  cases h : variableDeclaration none line.cells with
  | none => exact returned_of_kept hline (freezeLine_of_none reassigned hline h)
  | some r =>
    obtain ⟨d, rest⟩ := r
    cases hname : reassigned d.name with
    | true => exact returned_of_kept hline (freezeLine_of_reassigned hline h hname)
    | false =>
      obtain ⟨y, gap, x, b, hcells, hindent, hgap, hx, e⟩ := freezeLine_of_fresh hline h hname
      rw [backward_of_frozen hline hcells hindent hgap hx e, ← hline.1]
      refine returned_self hline fun d' rest' hd => ?_
      rw [functionDefinition_of_variable h] at hd
      cases hd

end Lines

namespace Returned

variable {code code' : Text} (h : Returned code code')
include h

/-- In front of what is kept there were and are only plain words and blanks. -/
theorem same_tail :
    ∃ w w' rest, code = w ++ rest ∧ code' = w' ++ rest ∧ (∀ c ∈ w, Tame c ∧ isBracket c = false) ∧
    ∀ c ∈ w', Tame c ∧ isBracket c = false := by
  have hblanks {w : Text} (hw : ∀ c ∈ w, Text.isBlank c = true) : ∀ c ∈ w, Tame c ∧
      isBracket c = false := fun c hc =>
    ⟨tame_of_white (Text.isSpace_of_isBlank (hw c hc)),
      isBracket_white (Text.isSpace_of_isBlank (hw c hc))⟩
  cases h with
  | bare =>
    cases hread : functionDefinition.readAt? code with
    | none =>
      have hsame : unmarked code = code := unmarked_of_none fun d hd => by
        rw [hread] at hd; cases hd
      exact ⟨[], [], code, rfl, hsame, fun _ hc => absurd hc List.not_mem_nil, fun _ hc =>
        absurd hc List.not_mem_nil⟩
    | some d =>
      obtain ⟨body, typed, rest, e, e', hindent, hmark, -⟩ := unmarked_of_some hread
      refine ⟨d.indent ++ d.method.getD [], d.indent, body, by
        rw [e, List.append_assoc], e', ?_, hblanks hindent⟩
      rw [List.forall_mem_append]
      refine ⟨hblanks hindent, ?_⟩
      cases hmethod : d.method with
      | none => exact fun _ hc => absurd hc List.not_mem_nil
      | some m =>
        obtain ⟨-, keyword, gap, rfl, hseen, -, hgap⟩ := methodMark_eq_some (hmark m hmethod)
        obtain rfl : keyword = "method".toList := (List.map_id keyword).symm.trans hseen
        rw [Option.getD_some, List.forall_mem_append]
        exact ⟨by decide, hblanks hgap⟩
  | @respelt w indent b y hw e hindent hy =>
    refine ⟨indent ++ w, indent ++ "var".toList, y :: b, by
      rw [e, List.append_assoc], by rw [List.append_assoc], ?_, ?_⟩
    · rw [List.forall_mem_append]
      refine ⟨hblanks hindent, ?_⟩
      rcases hw with rfl | rfl <;> decide
    · rw [List.forall_mem_append]
      exact ⟨hblanks hindent, by decide⟩

theorem brackets_eq : brackets code' = brackets code := by
  obtain ⟨w, w', rest, rfl, rfl, hw, hw'⟩ := h.same_tail
  rw [brackets_append, brackets_append, brackets_of_none fun c hc => (hw c hc).2,
    brackets_of_none fun c hc => (hw' c hc).2]

theorem staysOpen_eq : staysOpen code' = staysOpen code := by
  obtain ⟨w, w', rest, rfl, rfl, hw, hw'⟩ := h.same_tail
  rw [staysOpen_append fun c hc => (hw c hc).1, staysOpen_append fun c hc => (hw' c hc).1]

theorem exports_iff : exportHead.readAt? code' = none ↔ exportHead.readAt? code = none := by
  have hword {code : Text} (hne : firstWord code ≠ "export".toList) :
      exportHead.readAt? code = none :=
    Classical.not_not.mp fun h => hne (firstWord_of_export h)
  cases h with
  | bare =>
    cases hread : functionDefinition.readAt? code with
    | none => rw [unmarked_of_none fun d hd => by rw [hread] at hd; cases hd]
    | some d =>
      cases hmethod : d.method with
      | none =>
        rw [unmarked_of_none fun d' hd => ?_]
        obtain rfl := Option.some.inj (hread.symm.trans hd)
        exact hmethod
      | some m =>
        have hmarked := firstWord_of_method hread (by rw [hmethod]; exact Option.some_ne_none m)
        refine iff_of_true ?_ (hword (by rw [hmarked]; decide))
        obtain ⟨body, typed, rest, -, e, hindent, -, hplain⟩ := unmarked_of_some hread
        obtain ⟨-, -, -, x, b, rfl, hx⟩ := plainDefinition_eq_some hplain
        rw [e]
        refine Option.eq_none_iff_forall_ne_some.mpr fun v hv => ?_
        obtain ⟨rest', hv⟩ := readAt?_eq_some hv
        obtain ⟨indent, keyword, y, gap, x', b', hblanks, hseen, hgap, hx'⟩ := exportHead_eq_some hv
        have hbody : blanks (d.indent ++ x :: b) = some (d.indent, x :: b) :=
          run_append hindent fun _ hg => Option.some.inj hg ▸ not_blank_of_word hx
        obtain ⟨-, e⟩ := Prod.mk.inj (Option.some.inj (hbody.symm.trans hblanks))
        rw [e, plainDefinition_of_word hseen undefining_export hgap hx'] at hplain
        cases hplain
  | @respelt w indent b y hw e hindent hy =>
    have hfirst {w : Text} (hw : (∀ c ∈ w, Text.isWord c = true) ∧ w ≠ []) :
        firstWord (indent ++ (w ++ y :: b)) = w :=
      firstWord_cons hindent hw.1 hw.2 (not_word_of_blank hy)
    refine iff_of_true (hword ?_) (hword ?_)
    · rw [hfirst (by decide)]
      decide
    · rw [e]
      rcases hw with rfl | rfl <;> rw [hfirst (by decide)] <;> decide

/-- A line declares the script afterwards if it does without the mark of its method. -/
theorem declares_eq : declares code' = declares (unmarked code) := by
  have hword {code : Text} (hne : ∀ call : DeclarationCall, firstWord code ≠ call.name.toList) :
      declares code = false := by
    refine Option.isSome_eq_false_iff.mpr
      (Option.isNone_iff_eq_none.mpr (Option.eq_none_iff_forall_ne_some.mpr fun call hcall => ?_))
    exact hne call (firstWord_of_declaration hcall)
  cases h with
  | bare => rfl
  | @respelt w indent b y hw e hindent hy =>
    have hfirst {w : Text} (hw : (∀ c ∈ w, Text.isWord c = true) ∧ w ≠ []) :
        firstWord (indent ++ (w ++ y :: b)) = w :=
      firstWord_cons hindent hw.1 hw.2 (not_word_of_blank hy)
    have hold : firstWord code = w := by
      rw [e]
      rcases hw with rfl | rfl <;> exact hfirst (by decide)
    have hmark : unmarked code = code :=
      unmarked_of_firstWord (by rw [hold]; rcases hw with rfl | rfl <;> decide)
    rw [hmark, hword fun call => ?_, hword fun call => ?_]
    · rw [hold]
      rcases hw with rfl | rfl <;> cases call <;> decide
    · rw [hfirst (by decide)]
      cases call <;> decide

end Returned

end PineTools.Convert
