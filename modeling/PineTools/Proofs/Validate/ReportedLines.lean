import PineTools.Proofs.Construct.FirstWord
import PineTools.Proofs.Construct.Statements
import PineTools.Proofs.Repair.Commas
import PineTools.Proofs.Scan.LineNumbers
import PineTools.Proofs.Validate.Acceptance
import PineTools.Proofs.Validate.Noninterference

/-! The lines that a validation reports. However a line was counted, it is the line that is looked
up for the offset of the character or the match that the report is about. -/
namespace PineTools

variable {t : Text}

theorem name_of_missingCommas : ∀ call ∈ missingCommas t,
    call.line = Text.lineAt t call.start ∧ call.name <+: (mask t).drop call.start := by
  intro call hcall
  obtain ⟨m, hm, hfound⟩ := List.mem_filterMap.mp hcall
  obtain ⟨pre, behind, hmask, hstart, happ⟩ :=
    Pattern.applies_of_mem_findAll Repair.advances_simpleCall hm
  obtain ⟨x, y, e, -⟩ := simpleCall_eq_some happ
  rw [MissingCommas.ofMatch?] at hfound
  split at hfound
  · cases hfound
  · cases hfound
    refine ⟨lineAt_mask t m.start, ?_⟩
    rw [hmask, hstart, List.drop_left' rfl, e]
    exact List.prefix_append _ _

/-- The name of the call stands at the offset, which is the start of a line. -/
structure DeclaredAt (t : Text) (call : DeclarationCall) (i : Nat) : Prop where
  name : call.name.toList <+: (mask t).drop i
  begins : i = 0 ∨ t[i - 1]? = some '\n'

theorem declaredAt_of_match : ∀ m ∈ declaration.findAll (mask t), DeclaredAt t m.value m.start := by
  intro m hm
  obtain ⟨pre, behind, hmask, hstart, happ⟩ :=
    Pattern.applies_of_mem_findAll lineWise_declaration.advances hm
  obtain ⟨hbefore, hread⟩ := Pattern.atLineStart_eq_some.mp happ
  obtain ⟨keyword, gap, y, e, hseen, -⟩ := declaration_eq_some (α := Char) hread
  have hkeyword : keyword = m.value.name.toList := (List.map_id keyword).symm.trans hseen
  refine ⟨?_, ?_⟩
  · rw [hmask, hstart, List.drop_left' rfl, e, hkeyword]
    exact List.prefix_append _ _
  · rw [Pattern.passed_none] at hbefore
    rcases List.eq_nil_or_concat pre with rfl | ⟨init, g, rfl⟩
    · exact .inl hstart
    · right
      rw [List.concat_eq_append, List.getLast?_concat] at hbefore
      have hg : g = '\n' := by simpa [Glyph.seen] using hbefore
      have hnewline : (mask t)[m.start - 1]? = some '\n' := by
        rw [hmask, hstart, hg]
        simp
      exact (newline_mask t _).mp hnewline

/-- Every line number is the one that is looked up for an offset: that of the quote that opens a
literal which stays open, and of the end of the line on which it does; that of the slash and star
that open a comment which nothing ends; that of a bracket that does not fit, and of the one it met;
and that of a match. -/
theorem line_numbers_agree (t : Text) :
    (∀ i, Text.lineOf t i = 1 + (t.take i).count '\n' ∧ Text.lineAt t i = Text.lineOf t i ∧
      Text.lineAt (mask t) i = Text.lineOf t i) ∧
    (∀ u, u ∈ unclosedLiterals t ↔ ∃ i j, OpenLiteral t u.quote i j ∧ u.line = Text.lineOf t i ∧
      u.line = Text.lineOf t j ∧ (u.atEnd = true ↔ j = t.length)) ∧
    (∀ number, openComment? t = some number ↔ ∃ i, OpenComment t i ∧ number = Text.lineOf t i) ∧
    ((matchBrackets t).issues = (misfits t).map (Misfit.onLine (Text.lineOf t)) ∧ ∀ m ∈ misfits t,
      MisfitAt t m) ∧
    ((matchBrackets t).unclosed = (neverClosed t).map (BracketAt.onLine (Text.lineOf t)) ∧
      ∀ b ∈ neverClosed t, OpenerAt t b) ∧
    (∀ call ∈ missingCommas t, call.line = Text.lineOf t call.start ∧
      call.name <+: (mask t).drop call.start) ∧
    (declarations t = (declaration.findAll (mask t)).map fun m =>
      ⟨m.value, Text.lineOf t m.start⟩) ∧
    ∀ m ∈ declaration.findAll (mask t), DeclaredAt t m.value m.start := by
  have hlines : Text.lineOf t = Text.lineAt t := funext (Text.lineOf_eq_lineAt t)
  rw [hlines]
  obtain ⟨hissues, hunclosed⟩ := matchBrackets_onLine t
  obtain ⟨hmisfits, hopeners⟩ := misfits_at t
  refine ⟨fun i => ⟨Nat.add_comm _ _, rfl, lineAt_mask t i⟩, fun u => mem_unclosedLiterals,
    fun number => openComment?_eq_some, ⟨hissues, hmisfits⟩, ⟨hunclosed, hopeners⟩,
    name_of_missingCommas, declarations_eq t, declaredAt_of_match⟩

end PineTools
