import PineTools.Proofs.Pattern.Seen
import PineTools.Proofs.Scan.Mask
import PineTools.Validate.Basic

/-! What comments and literals hold does not show in a validation. Everything that is reported about
a script is read off its mask, apart from the marker and from the line of a comment that is not
ended. -/
namespace PineTools

theorem count_masked (cs : List Cell) :
    (cs.map Cell.masked).count '\n' = (cs.map Cell.char).count '\n' := by
  induction cs with
  | nil => rfl
  | cons c cs ih =>
    have hnewline : (c.masked == '\n') = (c.char == '\n') := by
      rw [Bool.eq_iff_iff, beq_iff_eq, beq_iff_eq]
      exact c.masked_newline
    rw [List.map_cons, List.map_cons, List.count_cons, List.count_cons, ih, hnewline]

theorem lineAt_mask (t : Text) (i : Nat) : Text.lineAt (mask t) i = Text.lineAt t i := by
  have hchars : t.take i = ((cells t).take i).map Cell.char := by
    rw [List.map_take, cells, cellsFrom_chars]
  rw [Text.lineAt, Text.lineAt, mask, ← List.map_take, count_masked, ← hchars]

theorem lines_masked (cs : List Cell) :
    (Text.lines (cs.map Cell.masked)).map List.length =
      (Text.lines (cs.map Cell.char)).map List.length := by
  induction cs with
  | nil => rfl
  | cons c cs ih =>
    rw [List.map_cons, List.map_cons, Text.lines, Text.lines]
    by_cases hc : c.char = '\n'
    · rw [if_pos (c.masked_newline.mpr hc), if_pos hc, List.map_cons, List.map_cons, ih]
    · rw [if_neg fun h => hc (c.masked_newline.mp h), if_neg hc]
      cases hl : Text.lines (cs.map Cell.masked) with
      | nil => exact absurd hl (Text.lines_ne_nil _)
      | cons l ls =>
        cases hl' : Text.lines (cs.map Cell.char) with
        | nil => exact absurd hl' (Text.lines_ne_nil _)
        | cons l' ls' =>
          rw [hl, hl', List.map_cons, List.map_cons, List.cons.injEq] at ih
          simp only [List.map_cons, List.length_cons, ih.1, ih.2]

theorem lines_mask (t : Text) :
    (Text.lines (mask t)).map List.length = (Text.lines t).map List.length := by
  have h := lines_masked (cells t)
  rw [cells, cellsFrom_chars] at h
  exact h

theorem lengthWarnings_mask (ruleId : String) (limit : Nat) (t : Text) :
    lengthWarnings ruleId limit (mask t) = lengthWarnings ruleId limit t := by
  -- A warning depends on the length of the line and on its number.
  let warning (p : Nat × Nat) : Option Diagnostic :=
    if p.1 > limit then
      some (.warning .lineLength ruleId s!"Line is {p.1} characters long (limit {limit})"
        (some (p.2 + 1)))
    else none
  have hlengths (s : Text) :
      lengthWarnings ruleId limit s =
        ((Text.lines s).map List.length).zipIdx.filterMap warning := by
    rw [List.zipIdx_map, List.filterMap_map]
    rfl
  rw [hlengths, hlengths, lines_mask]

theorem sizeWarnings_mask (threshold : Nat) (t : Text) :
    sizeWarnings threshold (mask t) = sizeWarnings threshold t := by
  rw [sizeWarnings, sizeWarnings, mask_length]

section TwoScripts

variable {a b : Text} (hmask : mask a = mask b)
include hmask

theorem bracketDiagnostics_of_mask (hcomment : openComment? a = openComment? b) :
    bracketDiagnostics a = bracketDiagnostics b := by
  rw [bracketDiagnostics, bracketDiagnostics, hcomment, ← matchBrackets_mask a,
    ← matchBrackets_mask b, hmask]

theorem literalDiagnostics_of_mask : literalDiagnostics a = literalDiagnostics b := by
  rw [literalDiagnostics, literalDiagnostics, ← unclosedLiterals_mask a,
    ← unclosedLiterals_mask b, hmask]

theorem declarations_of_mask : declarations a = declarations b := by
  have hlines (t : Text) : declarations t = (declaration.findAll (mask t)).map fun m =>
      ⟨m.value, Text.lineAt (mask t) m.start⟩ := by
    simp only [declarations_eq, lineAt_mask]
  rw [hlines, hlines, hmask]

theorem missingCommas_of_mask : missingCommas a = missingCommas b := by
  rw [missingCommas, missingCommas, hmask]

theorem findings_of_mask {τ κ : Type} [Timeline τ] [Clock κ τ] (settings : ValidationSettings τ)
    (fallback : ScriptVersion) (declared : Option ScriptVersion) (ha : Text.isAllSpace a = false)
    (hb : Text.isAllSpace b = false) (hmarker : findMarker a = findMarker b)
    (hcomment : openComment? a = openComment? b) :
    (Course.findings settings fallback declared a : Course τ κ ValidationResult) =
      Course.findings settings fallback declared b := by
  have hlengths : lengthWarnings "PS1301" settings.maxLineLength a =
      lengthWarnings "PS1301" settings.maxLineLength b := by
    rw [← lengthWarnings_mask, hmask, lengthWarnings_mask]
  have hsize : sizeWarnings settings.sizeThreshold a = sizeWarnings settings.sizeThreshold b := by
    rw [← sizeWarnings_mask, hmask, sizeWarnings_mask]
  have hmarked : (Course.marker a : Course τ κ (Option FoundMarker)) = Course.marker b :=
    funext fun t => by rw [Course.marker, Course.marker, hmarker]
  rw [Course.findings, Course.findings, ha, hb, hmarked, hmask,
    bracketDiagnostics_of_mask hmask hcomment, literalDiagnostics_of_mask hmask,
    declarations_of_mask hmask, missingCommas_of_mask hmask, hlengths, hsize]

theorem validateAs_of_mask {τ κ : Type} [Timeline τ] [Clock κ τ] (settings : ValidationSettings τ)
    (fallback : ScriptVersion) (declared : Option ScriptVersion) (budget : Option τ) (clock : κ)
    (ha : Text.isAllSpace a = false) (hb : Text.isAllSpace b = false)
    (hmarker : findMarker a = findMarker b) (hcomment : openComment? a = openComment? b) :
    validateAs settings fallback declared budget clock a =
      validateAs settings fallback declared budget clock b := by
  rw [validateAs, validateAs, validateHeard, validateHeard, Course.checks, Course.checks,
    findings_of_mask hmask settings fallback declared ha hb hmarker hcomment]

end TwoScripts

/-- Two scripts that are not blank, with the same mask, the same marker and the same comment left
open, go through the same validation: the same diagnostics or the same failure, the same reports and
the same readings of the clock. -/
theorem validate_reads_mask {τ κ : Type} [Timeline τ] [Clock κ τ] (settings : ValidationSettings τ)
    (fallback : ScriptVersion) (declared : Option Json) (budget : Option τ) (clock : κ) {a b : Text}
    (ha : Text.isAllSpace a = false) (hb : Text.isAllSpace b = false) (hmask : mask a = mask b)
    (hmarker : findMarker a = findMarker b) (hcomment : openComment? a = openComment? b) :
    validate settings fallback declared budget clock a =
      validate settings fallback declared budget clock b := by
  have h (version : Option ScriptVersion) :=
    validateAs_of_mask hmask settings fallback version budget clock ha hb hmarker hcomment
  rw [validate, validate, validateWith, validateWith]
  cases declaredVersion declared with
  | error e => rfl
  | ok version => exact h version

theorem findMarker_of_toOption {t : Text} {found : Option FoundMarker}
    (h : (findMarker t).toOption = some found) :
    findMarker t = .ok found := by
  cases hf : findMarker t with
  | error e =>
    rw [hf] at h
    cases h
  | ok found' =>
    rw [hf] at h
    exact congrArg Except.ok (Option.some.inj h)

/-- A study in a literal and a bracket in a comment stay unseen. -/
theorem validate_reads_mask_hidden :
    let a := "//@version=5\nindicator(\"study(\") // sma(\nplot(close) /* ) */".toList
    let b := "//@version=5\nindicator(\"a \\\" b\") // \"no\"\nplot(close) /*---*/".toList
    let settings : ValidationSettings Float := ⟨120, 180.0, 1.0, 50000, false, []⟩
    a ≠ b ∧ validate settings .v5 (some (.int 6)) none (⟨0.0, 0.5⟩ : SteadyClock) a =
      validate settings .v5 (some (.int 6)) none (⟨0.0, 0.5⟩ : SteadyClock) b := by
  intro a b settings
  have ha : findMarker a = .ok (some ⟨0, 5⟩) := findMarker_of_toOption (by decide +kernel)
  have hb : findMarker b = .ok (some ⟨0, 5⟩) := findMarker_of_toOption (by decide +kernel)
  have hmask : mask a = mask b := by decide +kernel
  have hcomment : openComment? a = openComment? b := by decide +kernel
  refine ⟨by decide +kernel, ?_⟩
  exact validate_reads_mask settings .v5 (some (.int 6)) none _ (by decide +kernel)
    (by decide +kernel) hmask (ha.trans hb.symm) hcomment

end PineTools
