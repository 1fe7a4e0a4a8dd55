import PineTools.Proofs.Construct.LeadingWords
import PineTools.Proofs.Convert.Targets

/-! What the step to the newest version makes of a line, and the step back. A declaration of a
variable gets another keyword, a definition gets the mark of methods, and any other line is kept.
The step back finds what was written, and nothing else. -/
namespace PineTools.Convert

open Reader

def freezeLine (reassigned : List Cell → Bool) (line : ScriptLine) : Text :=
  rewriteCells variableDeclaration (asFrozen reassigned) line.cells

def keywordLine (old new : String) (line : ScriptLine) : Text :=
  rewriteCells (leadingKeyword old) (fun gs k => withKeyword gs k.indent k.keyword new) line.cells

def markLine (line : ScriptLine) : Text := rewriteCells functionDefinition asMethod line.cells

/-- A line with the mark of its method removed. -/
def unmarkLine (line : ScriptLine) : Text := rewriteCells functionDefinition asFunction line.cells

section Lines

variable {line : ScriptLine} {indent gap b : List Cell} {x y : Cell}

theorem freezeLine_of_none (reassigned : List Cell → Bool) (hline : line.IsRead)
    (h : variableDeclaration none line.cells = none) : freezeLine reassigned line = line.text :=
  rewriteCells_of_none _ lineWise_variableDeclaration rfl hline.inLine h

theorem freezeLine_of_reassigned {reassigned : List Cell → Bool} (hline : line.IsRead)
    {d : VariableDeclaration Cell} {rest : List Cell} (h : variableDeclaration none line.cells =
      some (d, rest)) (hname : reassigned d.name = true) :
    freezeLine reassigned line = line.text := by
  obtain ⟨taken, htaken, e⟩ :=
    rewriteCells_of_some (asFrozen reassigned) lineWise_variableDeclaration rfl hline.inLine h
  rw [freezeLine, e, asFrozen, if_pos hname, ← writtenText_append, ← htaken]
  rfl

theorem freezeLine_of_fresh {reassigned : List Cell → Bool} (hline : line.IsRead)
    {d : VariableDeclaration Cell} {rest : List Cell} (h : variableDeclaration none line.cells =
      some (d, rest)) (hname : reassigned d.name = false) :
    ∃ y gap x b, line.cells = d.indent ++ ("var".toList.map codeCell ++ (y :: gap ++ x :: b)) ∧
      (∀ g ∈ d.indent, Text.isBlank (Glyph.seen g) = true) ∧
      (∀ g ∈ y :: gap, Text.isBlank (Glyph.seen g) = true) ∧
      Text.isWord (Glyph.seen x) = true ∧
      freezeLine reassigned line = writtenText d.indent ++
        ("let".toList ++ writtenText (y :: gap ++ x :: b)) := by
  obtain ⟨taken, htaken, e⟩ :=
    rewriteCells_of_some (asFrozen reassigned) lineWise_variableDeclaration rfl hline.inLine h
  obtain ⟨gap, x, more, hcells, hindent, hseen, hne, hgap, hx⟩ := variableDeclaration_eq_some h
  cases gap with
  | nil => exact absurd rfl hne
  | cons y gap =>
    obtain rfl : taken = d.indent ++ (d.keyword ++ (y :: gap ++ x :: more)) := by
      refine (List.append_left_inj rest).mp (htaken.symm.trans hcells |>.trans ?_)
      simp only [List.append_assoc, List.cons_append]
    have hkeyword := eq_codeCells hline hcells isName_var hseen (hgap y List.mem_cons_self)
    rw [hkeyword] at hcells
    refine ⟨y, gap, x, more ++ rest, hcells, hindent, hgap, hx, ?_⟩
    rw [freezeLine, e, asFrozen, if_neg (Bool.eq_false_iff.mp hname), withKeyword, drop_written,
      List.append_assoc, List.append_assoc, ← writtenText_append, List.append_assoc,
      List.cons_append (a := x)]

/-- The declaration of a variable is kept, or its keyword is replaced. -/
theorem freezeLine_cases (reassigned : List Cell → Bool) (hline : line.IsRead) :
    freezeLine reassigned line = line.text ∨
    ∃ indent y gap x b, line.cells = indent ++ ("var".toList.map codeCell ++ (y :: gap ++ x :: b)) ∧
      (∀ g ∈ indent, Text.isBlank (Glyph.seen g) = true) ∧
      (∀ g ∈ y :: gap, Text.isBlank (Glyph.seen g) = true) ∧
      Text.isWord (Glyph.seen x) = true ∧
      freezeLine reassigned line = writtenText indent ++
        ("let".toList ++ writtenText (y :: gap ++ x :: b)) := by
  cases h : variableDeclaration none line.cells with
  | none => exact .inl (freezeLine_of_none reassigned hline h)
  | some r =>
    cases hname : reassigned r.1.name with
    | true => exact .inl (freezeLine_of_reassigned hline h hname)
    | false => exact .inr ⟨_, freezeLine_of_fresh hline h hname⟩

theorem keywordLine_of_none {old : String} (hold : Repair.IsName old.toList) (new : String)
    (hline : line.IsRead) (h : leadingKeyword old none line.cells = none) :
    keywordLine old new line = line.text :=
  rewriteCells_of_none _ (lineWise_leadingKeyword hold.1 fun k =>
    (not_blank_of_isWordOrDot (hold.2 _ k)).2 rfl) rfl
    hline.inLine h

theorem keywordLine_of_some {old : String} (hold : Repair.IsName old.toList) (new : String)
    (hline : line.IsRead) {k : LeadingKeyword Cell} {rest : List Cell}
    (h : leadingKeyword old none line.cells = some (k, rest)) :
    line.cells = k.indent ++ (old.toList.map codeCell ++ rest) ∧
    (∀ g ∈ k.indent, Text.isBlank (Glyph.seen g) = true) ∧
      keywordLine old new line = writtenText k.indent ++ (new.toList ++ writtenText rest) := by
  obtain ⟨taken, htaken, e⟩ :=
    rewriteCells_of_some (fun gs k => withKeyword gs k.indent k.keyword new)
    (lineWise_leadingKeyword hold.1 fun k => (not_blank_of_isWordOrDot (hold.2 _ k)).2 rfl) rfl
      hline.inLine h
  obtain ⟨hcells, hindent, hseen, g, gs', rfl, hg⟩ := leadingKeyword_eq_some h
  have hkeyword := eq_codeCells hline hcells hold hseen hg
  obtain rfl : taken = k.indent ++ (k.keyword ++ []) := by
    refine (List.append_left_inj (g :: gs')).mp (htaken.symm.trans hcells |>.trans ?_)
    rw [List.append_nil, List.append_assoc]
  refine ⟨hkeyword ▸ hcells, hindent, ?_⟩
  rw [keywordLine, e, withKeyword, drop_written, List.append_assoc, List.append_assoc]
  rfl

theorem markLine_of_none (hline : line.IsRead) (h : functionDefinition none line.cells = none) :
    markLine line = line.text :=
  rewriteCells_of_none _ lineWise_functionDefinition rfl hline.inLine h

theorem markLine_of_some (hline : line.IsRead) {d : FunctionDefinition Cell} {rest : List Cell}
    (h : functionDefinition none line.cells = some (d, rest)) (hmethod : d.method = none) :
    ∃ x b, line.cells = d.indent ++ x :: b ∧ (∀ g ∈ d.indent, Text.isBlank (Glyph.seen g) = true) ∧
      Text.isWord (Glyph.seen x) = true ∧
      markLine line = writtenText d.indent ++ ("method ".toList ++ writtenText (x :: b)) := by
  obtain ⟨taken, htaken, e⟩ :=
    rewriteCells_of_some asMethod lineWise_functionDefinition rfl hline.inLine h
  rw [htaken] at h
  obtain ⟨x, inner, rfl, hindent, hx, -⟩ := functionDefinition_taken h
  rw [hmethod, Option.getD_none, List.nil_append] at htaken e
  refine ⟨x, inner ++ rest, by rw [htaken, List.append_assoc, List.cons_append], hindent, hx, ?_⟩
  have hdrop : (writtenText (d.indent ++ x :: inner)).drop d.indent.length =
      writtenText (x :: inner) :=
    drop_written d.indent [] (x :: inner)
  rw [markLine, e, asMethod_of_none hmethod, hdrop, List.append_assoc, List.append_assoc,
    ← writtenText_append, List.cons_append]

theorem markLine_of_marked (hline : line.IsRead) {d : FunctionDefinition Cell}
    {rest mark : List Cell} (h : functionDefinition none line.cells = some (d, rest))
    (hmethod : d.method = some mark) :
    markLine line = line.text := by
  obtain ⟨taken, htaken, e⟩ :=
    rewriteCells_of_some asMethod lineWise_functionDefinition rfl hline.inLine h
  rw [markLine, e, asMethod_of_some hmethod, ← writtenText_append, ← htaken]
  rfl

theorem unmarkLine_of_none (hline : line.IsRead)
    (h : ∀ d rest, functionDefinition none line.cells = some (d, rest) → d.method = none) :
    unmarkLine line = line.text := by
  cases hfind : functionDefinition none line.cells with
  | none => exact rewriteCells_of_none _ lineWise_functionDefinition rfl hline.inLine hfind
  | some r =>
    obtain ⟨d, rest⟩ := r
    obtain ⟨taken, htaken, e⟩ :=
      rewriteCells_of_some asFunction lineWise_functionDefinition rfl hline.inLine hfind
    rw [unmarkLine, e, asFunction_of_none (h d rest hfind), ← writtenText_append, ← htaken]
    rfl

theorem unmarkLine_of_some (hline : line.IsRead) {d : FunctionDefinition Cell}
    {rest mark : List Cell} (h : functionDefinition none line.cells = some (d, rest))
    (hmethod : d.method = some mark) (hb : line.cells = d.indent ++ (mark ++ b)) :
    unmarkLine line = writtenText d.indent ++ writtenText b := by
  obtain ⟨taken, htaken, e⟩ :=
    rewriteCells_of_some asFunction lineWise_functionDefinition rfl hline.inLine h
  rw [htaken] at h
  obtain ⟨x, inner, rfl, -⟩ := functionDefinition_taken h
  rw [hmethod, Option.getD_some] at htaken e
  obtain rfl : b = x :: inner ++ rest := by
    rw [htaken, List.append_assoc, List.append_assoc] at hb
    exact (List.append_cancel_left (List.append_cancel_left hb)).symm
  rw [unmarkLine, e, asFunction_of_some hmethod, drop_written, List.append_assoc,
    ← writtenText_append]

end Lines

section Keeping

theorem keeps_freezeLine (reassigned : List Cell → Bool) :
    KeepsReading (freezeLine reassigned) := by
  intro line hline
  refine ⟨((rewrites_freezeVariables reassigned).line hline).1, ?_⟩
  rcases freezeLine_cases reassigned hline with e | ⟨indent, y, gap, x, b, hcells, hindent, -, -, e⟩
  · rw [e]
  · rw [e]
    exact (cells_respell hline hcells hindent ⟨_, _, rfl, by decide⟩ isName_var.tame
      isName_let.codeWord).2

theorem keeps_keywordLine {old new : String} (hold : Repair.IsName old.toList)
    (hnew : Repair.IsName new.toList) :
    KeepsReading (keywordLine old new) := by
  intro line hline
  refine ⟨((rewrites_replaceKeyword hold hnew).line hline).1, ?_⟩
  cases h : leadingKeyword old none line.cells with
  | none => rw [keywordLine_of_none hold new hline h]
  | some r =>
    obtain ⟨k, rest⟩ := r
    obtain ⟨hcells, hindent, e⟩ := keywordLine_of_some hold new hline h
    rw [e]
    refine (cells_respell hline hcells hindent ?_ hold.tame hnew.codeWord).2
    cases hlist : old.toList with
    | nil => exact absurd hlist hold.1
    | cons c cs => exact ⟨_, _, rfl, (seen_codeCell c).symm ▸ hold.2 c (hlist ▸ List.mem_cons_self)⟩

theorem codeWord_method : CodeWord "method ".toList := ⟨by decide, by decide, by decide⟩

theorem keeps_markLine : KeepsReading markLine := by
  intro line hline
  refine ⟨(rewrites_addMethod.line hline).1, ?_⟩
  cases h : functionDefinition none line.cells with
  | none => rw [markLine_of_none hline h]
  | some r =>
    obtain ⟨d, rest⟩ := r
    cases hmethod : d.method with
    | none =>
      obtain ⟨x, b, hcells, hindent, hx, e⟩ := markLine_of_some hline h hmethod
      rw [e]
      exact (@cells_respell line d.indent (x :: b) hline [] _ hcells hindent
        ⟨x, b, rfl, isWordOrDot_of_isWord hx⟩ (by decide)
        codeWord_method).2
    | some m => rw [markLine_of_marked hline h hmethod]

end Keeping

/-- Nothing on the line looks like the work of the step to the newest version, or is lost in the
step back. -/
structure Restorable (line : ScriptLine) : Prop where
  noLet : leadingKeyword "let" none line.cells = none
  noVarip : leadingKeyword "varip" none line.cells = none
  noMethod : ∀ d rest, functionDefinition none line.cells = some (d, rest) → d.method = none

/-- What the step to the newest version makes of a line. -/
def forwardLine (reassigned : List Cell → Bool) (line : ScriptLine) : Text :=
  markLine (reread (fun line => keywordLine "varip" "var" (reread (freezeLine reassigned) line))
    line)

/-- What the step back makes of a line. -/
def backwardLine (line : ScriptLine) : Text := unmarkLine (reread (keywordLine "let" "var") line)

theorem Restorable.backward {line : ScriptLine} (hline : line.IsRead) (h : Restorable line) :
    backwardLine line = line.text := by
  rw [backwardLine, reread_of_text hline (keywordLine_of_none isName_let "var" hline h.noLet)]
  exact unmarkLine_of_none hline h.noMethod

theorem keeps_forwardLine (reassigned : List Cell → Bool) : KeepsReading (forwardLine reassigned) :=
  ((keeps_freezeLine reassigned).comp (keeps_keywordLine isName_varip isName_var)).comp
    keeps_markLine

/-- Where no line begins with `varip`, the second rewriting keeps what the first one left. -/
theorem forwardLine_eq {line : ScriptLine} (hline : line.IsRead) {reassigned : List Cell → Bool}
    (h : leadingKeyword "varip" none (reread (freezeLine reassigned) line).cells = none) :
    forwardLine reassigned line = markLine (reread (freezeLine reassigned) line) := by
  have hkept :=
    keywordLine_of_none isName_varip "var" ((keeps_freezeLine reassigned).isRead hline) h
  rw [forwardLine, reread, hkept, reread, ScriptLine.readLine_text]

section Undo

variable {line : ScriptLine} {indent gap b : List Cell} {x y : Cell}

theorem cells_frozen (hline : line.IsRead) {reassigned : List Cell → Bool}
    (hcells : line.cells = indent ++ ("var".toList.map codeCell ++ (y :: gap ++ x :: b)))
    (hindent : ∀ g ∈ indent, Text.isBlank (Glyph.seen g) = true)
    (e : freezeLine reassigned line = writtenText indent ++
      ("let".toList ++ writtenText (y :: gap ++ x :: b))) :
    (reread (freezeLine reassigned) line).cells = indent ++
      ("let".toList.map codeCell ++ (y :: gap ++ x :: b)) := by
  rw [reread, ScriptLine.readLine_cells, e]
  exact (cells_respell hline hcells hindent ⟨_, _, rfl, by decide⟩ isName_var.tame
    isName_let.codeWord).1

theorem forward_of_frozen (hline : line.IsRead) {reassigned : List Cell → Bool}
    (hcells : line.cells = indent ++ ("var".toList.map codeCell ++ (y :: gap ++ x :: b)))
    (hindent : ∀ g ∈ indent, Text.isBlank (Glyph.seen g) = true)
    (hgap : ∀ g ∈ y :: gap, Text.isBlank (Glyph.seen g) = true)
    (hx : Text.isWord (Glyph.seen x) = true) (e : freezeLine reassigned line = writtenText indent ++
      ("let".toList ++ writtenText (y :: gap ++ x :: b))) :
    reread (forwardLine reassigned) line = reread (freezeLine reassigned) line := by
  have hfrozen := (keeps_freezeLine reassigned).isRead hline
  have hvarip : leadingKeyword "varip" none (reread (freezeLine reassigned) line).cells = none := by
    rw [cells_frozen hline hcells hindent e]
    exact leadingKeyword_of_other hindent (by decide) (by decide) (by decide) (by decide)
  have hdefinition :
      functionDefinition none (reread (freezeLine reassigned) line).cells = none := by
    rw [cells_frozen hline hcells hindent e]
    exact functionDefinition_of_word (seenText_codeCells _) undefining_let hindent hgap hx
  rw [reread, forwardLine_eq hline hvarip, markLine_of_none hfrozen hdefinition, reread,
    ScriptLine.readLine_text]

/-- A frozen declaration is found again, and nothing else is. -/
theorem backward_of_frozen (hline : line.IsRead) {reassigned : List Cell → Bool}
    (hcells : line.cells = indent ++ ("var".toList.map codeCell ++ (y :: gap ++ x :: b)))
    (hindent : ∀ g ∈ indent, Text.isBlank (Glyph.seen g) = true)
    (hgap : ∀ g ∈ y :: gap, Text.isBlank (Glyph.seen g) = true)
    (hx : Text.isWord (Glyph.seen x) = true) (e : freezeLine reassigned line = writtenText indent ++
      ("let".toList ++ writtenText (y :: gap ++ x :: b))) :
    backwardLine (reread (forwardLine reassigned) line) = line.text := by
  have hfrozen := (keeps_freezeLine reassigned).isRead hline
  have hlet : leadingKeyword "let" none (reread (freezeLine reassigned) line).cells =
      some (⟨indent, "let".toList.map codeCell⟩, y :: gap ++ x :: b) := by
    rw [cells_frozen hline hcells hindent e]
    exact leadingKeyword_of_word isName_let hindent (hgap y List.mem_cons_self)
  obtain ⟨-, -, hback⟩ := keywordLine_of_some isName_let "var" hfrozen hlet
  have htext :
      writtenText indent ++ ("var".toList ++ writtenText (y :: gap ++ x :: b)) = line.text := by
    rw [ScriptLine.text, hcells, ← writtenText, writtenText_append indent,
      writtenText_append ("var".toList.map codeCell), writtenText_codeCells]
  rw [htext] at hback
  have hline' : reread (keywordLine "let" "var") (reread (freezeLine reassigned) line) = line := by
    rw [reread, hback, reread, ScriptLine.readLine_inComment]
    exact hline.1.symm
  have hnone : functionDefinition none line.cells = none :=
    hcells ▸ functionDefinition_of_word (seenText_codeCells _) undefining_var hindent hgap hx
  rw [backwardLine, forward_of_frozen hline hcells hindent hgap hx e, hline']
  exact unmarkLine_of_none hline fun d rest hd => by rw [hnone] at hd; cases hd

theorem backward_of_marked (hline : line.IsRead) {d : FunctionDefinition Cell} {rest : List Cell}
    (hdefinition : functionDefinition none line.cells = some (d, rest))
    (hmethod : d.method = none) :
    backwardLine (reread markLine line) = line.text := by
  obtain ⟨x, b, hcells, hindent, hx, e⟩ := markLine_of_some hline hdefinition hmethod
  have hmarked := keeps_markLine.isRead hline
  have hmarkedcells : (reread markLine line).cells = d.indent ++
      ("method ".toList.map codeCell ++ x :: b) := by
    rw [reread, ScriptLine.readLine_cells, e]
    exact (@cells_respell line d.indent (x :: b) hline [] _ hcells hindent
      ⟨x, b, rfl, isWordOrDot_of_isWord hx⟩ (by decide)
      codeWord_method).1
  have hlet : leadingKeyword "let" none (reread markLine line).cells = none := by
    rw [hmarkedcells]
    exact leadingKeyword_of_other hindent (by decide) (by decide) (by decide) (by decide)
  rw [hcells] at hdefinition
  obtain ⟨d', rest', hfound, hindent', hmethod'⟩ :=
    functionDefinition_mark hdefinition hmethod hindent hx
  rw [← hmarkedcells] at hfound
  rw [backwardLine, reread_of_text hmarked (keywordLine_of_none isName_let "var" hmarked hlet),
    unmarkLine_of_some hmarked hfound hmethod' (hindent' ▸ hmarkedcells), hindent',
    ← writtenText_append, ← hcells]
  rfl

end Undo

/-- The step back undoes what the step to the newest version made of a line. -/
theorem Restorable.backward_forward {line : ScriptLine} (hline : line.IsRead) (h : Restorable line)
    (reassigned : List Cell → Bool) :
    backwardLine (reread (forwardLine reassigned) line) = line.text := by
  rcases freezeLine_cases reassigned hline with e | ⟨indent, y, gap, x, b, hcells, hindent,
    hgap, hx, e⟩
  · have hsame := reread_of_text hline e
    have hforward : reread (forwardLine reassigned) line = reread markLine line := by
      rw [reread, forwardLine_eq hline (by rw [hsame]; exact h.noVarip), hsame, reread]
    rw [hforward]
    cases hdefinition : functionDefinition none line.cells with
    | none =>
      rw [reread_of_text hline (markLine_of_none hline hdefinition)]
      exact h.backward hline
    | some r => exact backward_of_marked hline hdefinition (h.noMethod r.1 r.2 hdefinition)
  · exact backward_of_frozen hline hcells hindent hgap hx e

end PineTools.Convert
