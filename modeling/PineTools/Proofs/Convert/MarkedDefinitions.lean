import PineTools.Proofs.Convert.Newest

/-! Definitions in the newest version. The step to it writes the mark of methods behind the
indentation of each definition that lacks it, and a definition so marked is read with its mark, so
that no definition without one is left. -/
namespace PineTools.Convert

open Reader Pattern

/-- A masked line that defines a function without the mark of methods. -/
def PlainDefinition (code : Text) : Prop :=
  ∃ d : FunctionDefinition Char, functionDefinition.readAt? code = some d ∧ d.method = none

/-- A line with the mark of methods behind its indentation, where its mask defines a function
without the mark. -/
def insertMark (l code : Text) : Text :=
  match (functionDefinition : Pattern Char (FunctionDefinition Char)).readAt? code with
  | some d => if d.method.isSome then l else l.take d.indent.length ++ "method ".toList ++
      l.drop d.indent.length
  | none => l

section Lines

variable {line : ScriptLine}

theorem definition_masked (line : ScriptLine) : functionDefinition.readAt? line.masked =
    (functionDefinition.readAt? line.cells).map (FunctionDefinition.seen : FunctionDefinition Cell →
      FunctionDefinition Char) := by
  rw [masked_eq_seenText]
  exact readAt?_seen seesAs_functionDefinition line.cells

theorem text_split {a b : List Cell} (hcells : line.cells = a ++ b) :
    line.text.take a.length = writtenText a ∧ line.text.drop a.length = writtenText b := by
  have htext : line.text = writtenText a ++ writtenText b := by
    rw [← writtenText_append, ← hcells]
    rfl
  have hlength : (writtenText a).length = a.length := List.length_map _
  rw [htext, ← hlength]
  exact ⟨List.take_left, List.drop_left⟩

theorem markLine_eq (hline : line.IsRead) : markLine line = insertMark line.text line.masked := by
  rw [insertMark, definition_masked]
  cases h : functionDefinition none line.cells with
  | none =>
    rw [readAt?_of_none h]
    exact markLine_of_none hline h
  | some r =>
    obtain ⟨d, rest⟩ := r
    rw [readAt?_of_some h]
    cases hmethod : d.method with
    | some mark =>
      have hsome : (FunctionDefinition.seen d).method.isSome = true := by
        simp [FunctionDefinition.seen, hmethod]
      rw [Option.map_some]
      simp only [hsome, if_true]
      exact markLine_of_marked hline h hmethod
    | none =>
      obtain ⟨x, b, hcells, -, -, e⟩ := markLine_of_some hline h hmethod
      obtain ⟨htake, hdrop⟩ := text_split hcells
      have hnone : (FunctionDefinition.seen d).method.isSome = false := by
        simp [FunctionDefinition.seen, hmethod]
      have hlength : (FunctionDefinition.seen d).indent.length = d.indent.length := by
        simp [FunctionDefinition.seen, seenText]
      rw [Option.map_some]
      simp only [hnone, Bool.false_eq_true, if_false, hlength, htake, hdrop]
      rw [e, List.append_assoc]

theorem method_of_markLine (hline : line.IsRead) :
    ¬ PlainDefinition (reread markLine line).masked := by
  rintro ⟨d', hread, hmethod'⟩
  -- The line is kept, or its definition is read again behind the mark.
  obtain ⟨d, rest, hd, hmethod⟩ : ∃ d rest, functionDefinition none (reread markLine line).cells =
    some (d, rest) ∧
      d.method = none := by
    rw [definition_masked] at hread
    obtain ⟨d, hd, rfl⟩ := Option.map_eq_some_iff.mp hread
    obtain ⟨rest, hd⟩ := readAt?_eq_some hd
    exact ⟨d, rest, hd, Option.map_eq_none_iff.mp hmethod'⟩
  cases h : functionDefinition none line.cells with
  | none =>
    rw [reread_of_text hline (markLine_of_none hline h), h] at hd
    cases hd
  | some r =>
    obtain ⟨d₀, rest₀⟩ := r
    cases hmethod₀ : d₀.method with
    | some mark =>
      rw [reread_of_text hline (markLine_of_marked hline h hmethod₀), h] at hd
      cases hd
      rw [hmethod] at hmethod₀
      cases hmethod₀
    | none =>
      obtain ⟨x, b, hcells, hindent, hx, e⟩ := markLine_of_some hline h hmethod₀
      have hmarked : (reread markLine line).cells = d₀.indent ++
          ("method ".toList.map codeCell ++ x :: b) := by
        rw [reread, ScriptLine.readLine_cells, e]
        exact (@cells_respell line d₀.indent (x :: b) hline [] _ hcells hindent
          ⟨x, b, rfl, isWordOrDot_of_isWord hx⟩
          (by decide) codeWord_method).1
      rw [hcells] at h
      obtain ⟨d₁, rest₁, hfound, -, hmethod₁⟩ := functionDefinition_mark h hmethod₀ hindent hx
      rw [hmarked, hfound] at hd
      cases hd
      rw [hmethod] at hmethod₁
      cases hmethod₁

end Lines

theorem lines_addMethod (t : Text) :
    Text.lines (addMethod t) = rewriteLines markLine false (Text.lines t) :=
  rewrites_addMethod.lines_substitute t

/-- Marking definitions changes nothing but the lines whose definition lacks the mark, and writes
the mark there. -/
theorem lines_addMethod_eq (t : Text) :
    Text.lines (addMethod t) = List.zipWith insertMark (Text.lines t) (Text.lines (mask t)) := by
  have htexts : Text.lines t = (scriptLines t).map ScriptLine.text := by
    rw [scriptLines_readLines]
    exact (readLines_texts false (Text.lines t)).symm
  have hmarks : Text.lines (addMethod t) = (scriptLines t).map markLine := by
    rw [lines_addMethod, scriptLines_readLines]
    rfl
  rw [hmarks, lines_mask_eq, htexts, List.zipWith_map]
  simp only [List.zipWith_self]
  exact List.map_congr_left fun line hline => markLine_eq (isRead_of_mem_scriptLines hline)

theorem not_plain_addMethod (t : Text) :
    ∀ code ∈ Text.lines (mask (addMethod t)), ¬ PlainDefinition code := by
  have hlines : Text.lines (mask (addMethod t)) = (scriptLines t).map fun line =>
      (reread markLine line).masked := by
    have hone : ∀ l ∈ Text.lines t, Text.OneLine l := fun l hl => Text.oneLine_of_mem_lines hl
    rw [lines_mask_readLines, lines_addMethod, scriptLines_readLines]
    exact keeps_markLine.rewriteLines_rewriteLines ScriptLine.masked hone
  rw [hlines]
  refine List.forall_mem_map.mpr fun line hline => ?_
  exact method_of_markLine (isRead_of_mem_scriptLines hline)

/-- The line that is added for an import defines nothing. -/
theorem not_plain_newest (t : Text) :
    ∀ code ∈ Text.lines (mask (Step.v5ToV6.apply .shipped t)), ¬ PlainDefinition code := by
  have hrewritten : ∀ code ∈ Text.lines (mask (rewritten t)), ¬ PlainDefinition code :=
    not_plain_addMethod _
  rcases lines_mask_newest t with ⟨-, e⟩ | ⟨-, a, b, added, e, e', hadded⟩
  · rw [e]
    exact hrewritten
  · have hnone : ¬ PlainDefinition added := by
      rintro ⟨d, hd, -⟩
      obtain ⟨rest, hd⟩ := readAt?_eq_some hd
      have harrow := demands_functionDefinition hd
      rcases hadded with ⟨-, rfl⟩ | ⟨-, rfl⟩
      · exact absurd harrow (by decide)
      · exact absurd harrow (by decide)
    rw [e] at hrewritten
    rw [e']
    intro code hcode
    rcases List.mem_append.mp hcode with ha | hb
    · exact hrewritten code (List.mem_append_left b ha)
    · rcases List.mem_cons.mp hb with rfl | hb
      · exact hnone
      · exact hrewritten code (List.mem_append_right a hb)

section Rules

variable {τ κ : Type} [Timeline τ] [Clock κ τ] {fallback v : ScriptVersion} {s t : Text}
    {target : Json}

/-- No validation of a script in the newest version reports a definition without the mark of
methods. -/
theorem not_reports_plain (settings : ValidationSettings τ) (other : ScriptVersion)
    (budget : Option τ) (clock : κ) {r : ValidationResult}
    (h : (validate settings other none budget clock (Step.v5ToV6.apply .shipped t)).outcome = .ok
      r) :
    r.hasRule "PS3101".toList = false := by
  have hblank := not_blank_of_marked (marked_apply namesOnly_shipped t .v5ToV6)
  obtain ⟨rule, hmem, hid, hcheck⟩ : ∃ rule ∈ versionRules, rule.id = "PS3101" ∧
      rule.check = .line Rule.plainArrowDefinition :=
        ⟨versionRules[2], List.getElem_mem _, rfl, rfl⟩
  apply Bool.eq_false_iff.mpr
  intro hreported
  rw [← hid] at hreported
  obtain ⟨code, hcode, hplain⟩ :=
    (methods_fires_iff hcheck).mp (fires_of_validate_hasRule hblank h hmem hreported)
  exact not_plain_newest t code hcode hplain

/-- A script of an older version is converted to the newest one by way of the middle one, and no
line of the result defines a function without the mark of methods, so that no validation reports
one. Between the two, definitions are marked by writing the mark behind the indentation of each line
that defines a function without it, and by nothing else. -/
theorem convert_newest_marks_definitions (htarget : ScriptVersion.parse target = .ok .v6)
    (hv : detectVersion s fallback = .ok v) (hne : v ≠ .v6) :
    ∃ t r, convertTo fallback .shipped s .v5 = .ok t ∧ convert fallback .shipped s target = .ok r ∧
      (∀ code ∈ Text.lines (mask r), ¬ PlainDefinition code) ∧
      (∀ (settings : ValidationSettings τ) (other : ScriptVersion) (budget : Option τ) (clock : κ),
        ((∃ result, (validate settings other none budget clock r).outcome = .ok result) ∨
          ∃ e, (validate settings other none budget clock r).outcome = .error (.timeout e)) ∧
        ∀ result, (validate settings other none budget clock r).outcome = .ok result →
          result.hasRule "PS3101".toList = false) ∧
      ∃ u, u = replaceKeyword "varip" "var" (freezeVariables (setMarker .v6 t)) ∧
      r = addImport .shipped (addMethod u) ∧
        Text.lines (addMethod u) = List.zipWith insertMark (Text.lines u)
        (Text.lines (mask u)) := by
  obtain ⟨t, hmiddle, hnewest⟩ := newest_by_middle .shipped s hne
  refine ⟨t, Step.v5ToV6.apply .shipped t, ?_, ?_, not_plain_newest t, ?_, _, rfl, rfl,
    lines_addMethod_eq _⟩
  · rw [convertTo, hv, Except.map, hmiddle]
  · rw [convert_eq hv htarget, hnewest]
  · intro settings other budget clock
    constructor
    · exact validate_returns_or_late
        ((marked_apply namesOnly_shipped t .v5ToV6).detectVersion other)
    · intro result h
      exact not_reports_plain settings other budget clock h

/-- A function called like the mark, a typed definition behind a comment, and a definition that is
marked already. -/
theorem convert_newest_marks_definitions_typed :
    let s := "//@version=5\nmethod(x) =>\n    x\n/* c */float f(x) => x\nmethod g(x) => x".toList
    let r := "//@version=6\nimport ta\nmethod method(x) =>\n    x\n/* c */method float f(x) => x\nmethod g(x) => x".toList
    convert .v5 .shipped s (.int 6) = .ok r ∧ ∀ code ∈ Text.lines (mask r),
      ¬ PlainDefinition code := by
  intro s r
  have hconvert : convert .v5 .shipped s (.int 6) = .ok r := by decide +kernel
  obtain ⟨t, r', -, hnewest, hplain, -⟩ :=
    @convert_newest_marks_definitions Float SteadyClock _ _ .v5 .v5 s (.int 6)
    (by decide +kernel) (by decide +kernel) (by decide)
  obtain rfl : r = r' := Except.ok.inj (hconvert.symm.trans hnewest)
  exact ⟨hconvert, hplain⟩

end Rules

end PineTools.Convert
