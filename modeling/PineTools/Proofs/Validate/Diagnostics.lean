import PineTools.Proofs.Scan.Reports
import PineTools.Proofs.Validate.Acceptance
import PineTools.Proofs.Validate.Noninterference

/-! What a result looks like. Errors and warnings have the severity of their list, and the lines
that they name are lines of the script, however a check finds them. The settings about rules and
warnings act on a result that is there already. -/
namespace PineTools

namespace Text

theorem length_lines (t : Text) : (lines t).length = t.count '\n' + 1 := by
  induction t with
  | nil => rfl
  | cons c cs ih =>
    rw [lines]
    by_cases hc : c = '\n'
    · rw [if_pos hc, List.length_cons, ih, hc, List.count_cons_self]
    · rw [if_neg hc, List.count_cons_of_ne hc, ← ih]
      cases h : lines cs with
      | nil => exact absurd h (lines_ne_nil cs)
      | cons l ls => rfl

def HasLine (t : Text) (number : Nat) : Prop := 1 ≤ number ∧ number ≤ (lines t).length

theorem hasLine_of_le {t : Text} {number : Nat} (hlow : 1 ≤ number)
    (hhigh : number ≤ 1 + t.count '\n') : t.HasLine number :=
  ⟨hlow, by rw [length_lines]; omega⟩

theorem hasLine_lineAt (t : Text) (i : Nat) : t.HasLine (lineAt t i) := by
  have hcount := (List.take_sublist i t).count_le '\n'
  refine hasLine_of_le (Nat.succ_pos _) ?_
  rw [lineAt]
  omega

theorem hasLine_one (t : Text) : t.HasLine 1 := hasLine_lineAt t 0

end Text

open Text

section Lines

variable {t : Text}

theorem unclosedFrom_line_ge (m : Mode) (number : Nat) (t : Text) :
    ∀ u ∈ unclosedFrom m number t, u.line ≤ number + t.count '\n' := by
  have hopen (m : Mode) (n : Nat) (atEnd : Bool) : ∀ u ∈ openAt m n atEnd, u.line = n := by
    intro u hu
    cases m with
    | literal q => cases List.mem_singleton.mp hu; rfl
    | code b | line | lineSecond | block | blockSecond | blockLast | escaped q => cases hu
  induction t generalizing m number with
  | nil =>
    intro u hu
    rw [unclosedFrom_nil] at hu
    exact Nat.le_of_eq (hopen m number true u hu)
  | cons c cs ih =>
    intro u hu
    rw [unclosedFrom_step] at hu
    rcases List.mem_append.mp hu with hu | hu
    · split at hu
      · rw [hopen m number false u hu]
        exact Nat.le_add_right _ _
      · cases hu
    · rw [← line_after_cons]
      exact ih _ _ u hu

theorem unclosedLiterals_line : ∀ u ∈ unclosedLiterals t, t.HasLine u.line := fun u hu =>
  hasLine_of_le (unclosedFrom_line_le .start 1 t u hu) (unclosedFrom_line_ge .start 1 t u hu)

theorem openCommentFrom_line {m : Mode} {opened number n : Nat} {t : Text}
    (h : openCommentFrom m opened number t = some n) :
    n = opened ∨ number ≤ n ∧ n ≤ number + t.count '\n' := by
  induction t generalizing m opened number with
  | nil =>
    cases m with
    | block => exact .inl (Option.some.inj h).symm
    | code b | line | lineSecond | blockSecond | blockLast | literal q | escaped q => cases h
  | cons c cs ih =>
    rw [openCommentFrom] at h
    have hstep := ih h
    rw [line_after_cons] at hstep
    have hnext : number ≤ if c = '\n' then number + 1 else number := by split <;> omega
    rcases hstep with hopened | ⟨hlow, hhigh⟩
    · split at hopened
      · rw [hopened]
        exact .inr ⟨Nat.le_refl _, Nat.le_add_right _ _⟩
      · exact .inl hopened
    · exact .inr ⟨Nat.le_trans hnext hlow, hhigh⟩

theorem openComment?_line {n : Nat} (h : openComment? t = some n) : t.HasLine n := by
  rcases openCommentFrom_line h with rfl | ⟨hlow, hhigh⟩
  · exact hasLine_one t
  · exact hasLine_of_le hlow hhigh

theorem bracketStep_line (stack : List OpenBracket) (number : Nat) (c : Cell) :
    (∀ i ∈ (bracketStep stack number c).1, i.line = number) ∧
      ∀ o ∈ (bracketStep stack number c).2, o ∈ stack ∨ o.line = number := by
  have hnone : ∀ i ∈ ([] : List BracketIssue), i.line = number := List.forall_mem_nil _
  rw [bracketStep]
  split
  · split
    · refine ⟨hnone, fun o ho => ?_⟩
      rcases List.mem_cons.mp ho with rfl | ho
      · exact .inr rfl
      · exact .inl ho
    · exact ⟨hnone, fun o ho => .inl ho⟩
    · split
      · exact ⟨fun i hi => by cases List.mem_singleton.mp hi; rfl, fun o ho => .inl ho⟩
      · refine ⟨fun i hi => ?_, fun o ho => .inl (List.mem_cons_of_mem _ ho)⟩
        split at hi
        · cases hi
        · cases List.mem_singleton.mp hi
          rfl
  · exact ⟨hnone, fun o ho => .inl ho⟩

/-- Issues stand on the lines that are read, and so do openers that were not open before. -/
theorem bracketsFrom_line (stack : List OpenBracket) (number : Nat) (cs : List Cell) :
    (∀ i ∈ (bracketsFrom stack number cs).issues, number ≤ i.line ∧
      i.line ≤ number + (cs.map Cell.char).count '\n') ∧
      ∀ o ∈ (bracketsFrom stack number cs).unclosed,
        o ∈ stack ∨ number ≤ o.line ∧ o.line ≤ number + (cs.map Cell.char).count '\n' := by
  induction cs generalizing stack number with
  | nil => exact ⟨List.forall_mem_nil _, fun o ho => .inl (List.mem_reverse.mp ho)⟩
  | cons c cs ih =>
    obtain ⟨hissue, hstack⟩ := bracketStep_line stack number c
    obtain ⟨hissues, hunclosed⟩ :=
      ih (bracketStep stack number c).2 (if c.char = '\n' then number + 1 else number)
    have hnext : number ≤ if c.char = '\n' then number + 1 else number := by split <;> omega
    rw [line_after_cons] at hissues hunclosed
    rw [bracketsFrom_cons, BracketReport.behind_issues, BracketReport.behind_unclosed,
      List.map_cons]
    constructor
    · intro i hi
      rcases List.mem_append.mp hi with hi | hi
      · rw [hissue i hi]
        omega
      · exact ⟨Nat.le_trans hnext (hissues i hi).1, (hissues i hi).2⟩
    · intro o ho
      rcases hunclosed o ho with hbefore | ⟨hlow, hhigh⟩
      · rcases hstack o hbefore with hold | hnow
        · exact .inl hold
        · rw [hnow]
          exact .inr (by omega)
      · exact .inr ⟨Nat.le_trans hnext hlow, hhigh⟩

theorem matchBrackets_line :
    (∀ i ∈ (matchBrackets t).issues, t.HasLine i.line) ∧ ∀ o ∈ (matchBrackets t).unclosed,
      t.HasLine o.line := by
  obtain ⟨hissues, hunclosed⟩ := bracketsFrom_line [] 1 (cells t)
  rw [cells, cellsFrom_chars] at hissues hunclosed
  refine ⟨fun i hi => hasLine_of_le (hissues i hi).1 (hissues i hi).2, fun o ho => ?_⟩
  rcases hunclosed o ho with hnone | ⟨hlow, hhigh⟩
  · cases hnone
  · exact hasLine_of_le hlow hhigh

theorem findMarker_line {m : FoundMarker} (h : findMarker t = .ok (some m)) :
    t.HasLine (m.lineIndex + 1) := by
  rw [findMarker] at h
  split at h
  · cases h
  · next found _ =>
    split at h
    · cases h
      exact hasLine_lineAt t found.start
    · cases h

theorem declarations_line : ∀ d ∈ declarations t, t.HasLine d.line := by
  intro d hd
  obtain ⟨m, -, rfl⟩ := List.mem_map.mp hd
  exact hasLine_lineAt t m.start

theorem missingCommas_line : ∀ c ∈ missingCommas t, t.HasLine c.line := by
  intro c hc
  obtain ⟨m, -, hm⟩ := List.mem_filterMap.mp hc
  rw [MissingCommas.ofMatch?] at hm
  split at hm
  · cases hm
  · cases hm
    rw [lineAt_mask]
    exact hasLine_lineAt t m.start

end Lines

structure Diagnostic.Fits (severity : Severity) (script : Text) (d : Diagnostic) : Prop where
  severity : d.severity = severity
  line : ∀ number, d.line = some number → script.HasLine number

namespace Diagnostic

variable {script : Text}

variable {severity : Severity} {d : Diagnostic}

theorem fits_of_line_eq_some {number : Nat} (hseverity : d.severity = severity)
    (hline : d.line = some number) (h : script.HasLine number) : d.Fits severity script := by
  refine ⟨hseverity, fun other hother => ?_⟩
  rw [hline] at hother
  cases hother
  exact h

/-- A diagnostic without a line is about the script as a whole. -/
theorem fits_of_line_eq_none (hseverity : d.severity = severity) (hline : d.line = none) :
    d.Fits severity script := by
  refine ⟨hseverity, fun number h => ?_⟩
  rw [hline] at h
  cases h

theorem Fits.promoted (h : d.Fits severity script) : d.promoted.Fits .error script :=
  ⟨rfl, h.line⟩

end Diagnostic

open Diagnostic

section Checks

variable {script : Text}

theorem structuralDiagnostics_fit : ∀ d ∈ structuralDiagnostics script, d.Fits .error script := by
  intro d hd
  simp only [structuralDiagnostics, List.mem_append] at hd
  rcases hd with ((hd | hd) | hd) | hd
  · obtain ⟨i, hi, rfl⟩ := List.mem_map.mp hd
    unfold BracketIssue.diagnostic
    split <;> exact fits_of_line_eq_some rfl rfl (matchBrackets_line.1 i hi)
  · unfold unclosedDiagnostics at hd
    split at hd
    · cases hd
    · next first others hunclosed =>
      cases List.mem_singleton.mp hd
      exact fits_of_line_eq_some rfl rfl
        (matchBrackets_line.2 first (hunclosed ▸ List.mem_cons_self))
  · unfold commentDiagnostics at hd
    split at hd
    · cases hd
    · next line hline =>
      cases List.mem_singleton.mp hd
      exact fits_of_line_eq_some rfl rfl (openComment?_line hline)
  · obtain ⟨u, hu, rfl⟩ := List.mem_map.mp hd
    exact fits_of_line_eq_some rfl rfl (unclosedLiterals_line u hu)

theorem declarationDiagnostics_fit :
    ∀ d ∈ declarationDiagnostics (declarations script), d.Fits .error script := by
  intro d hd
  unfold declarationDiagnostics at hd
  split at hd
  · cases List.mem_singleton.mp hd
    exact fits_of_line_eq_none rfl rfl
  · cases hd
  · next first second others hfound =>
    cases List.mem_singleton.mp hd
    exact fits_of_line_eq_some rfl rfl
      (declarations_line second (hfound ▸ List.mem_cons_of_mem _ List.mem_cons_self))

theorem markerWarnings_fit {found : Option FoundMarker} (h : findMarker script = .ok found)
    (declared : Option ScriptVersion) (fallback : ScriptVersion) :
    ∀ d ∈ markerWarnings found declared fallback, d.Fits .warning script := by
  intro d hd
  unfold markerWarnings at hd
  split at hd
  · cases List.mem_singleton.mp hd
    exact fits_of_line_eq_some rfl rfl (hasLine_one script)
  · next m =>
    have hline := findMarker_line h
    split at hd
    · cases List.mem_singleton.mp hd
      exact fits_of_line_eq_some rfl rfl hline
    · cases hd
    · split at hd
      · cases hd
      · cases List.mem_singleton.mp hd
        exact fits_of_line_eq_some rfl rfl hline

theorem commaWarnings_fit :
    ∀ d ∈ (missingCommas script).map MissingCommas.diagnostic, d.Fits .warning script := by
  intro d hd
  obtain ⟨c, hc, rfl⟩ := List.mem_map.mp hd
  exact fits_of_line_eq_some rfl rfl (missingCommas_line c hc)

theorem lengthWarnings_fit (ruleId : String) (limit : Nat) :
    ∀ d ∈ lengthWarnings ruleId limit script, d.Fits .warning script := by
  intro d hd
  obtain ⟨p, hp, hwarning⟩ := List.mem_filterMap.mp hd
  have hindex : p.2 < 0 + (lines script).length := List.snd_lt_add_of_mem_zipIdx hp
  dsimp only at hwarning
  split at hwarning
  · cases hwarning
    exact fits_of_line_eq_some rfl rfl ⟨Nat.succ_pos _, by omega⟩
  · cases hwarning

theorem sizeWarnings_fit (threshold : Nat) :
    ∀ d ∈ sizeWarnings threshold script, d.Fits .warning script := by
  intro d hd
  rw [sizeWarnings] at hd
  split at hd
  · cases List.mem_singleton.mp hd
    exact fits_of_line_eq_none rfl rfl
  · cases hd

/-- A rule reports under the number of a masked line, which is that of a line of the script, or
under none. -/
theorem ruleDiagnostics_fit (v : ScriptVersion) :
    ∀ d ∈ ruleDiagnostics v (mask script), d.Fits d.severity script := by
  have hlength : (lines (mask script)).length = (lines script).length := by
    have h := congrArg List.length (lines_mask script)
    rwa [List.length_map, List.length_map] at h
  intro d hd
  rw [ruleDiagnostics, List.mem_append, List.mem_flatMap] at hd
  rcases hd with ⟨p, hp, hd⟩ | hd
  · obtain ⟨-, rule, -, -, -, subject, -, rfl⟩ := mem_lineDiagnostics.mp hd
    have hindex : p.2 < 0 + (lines (mask script)).length := List.snd_lt_add_of_mem_zipIdx hp
    exact fits_of_line_eq_some rfl rfl ⟨Nat.succ_pos _, by omega⟩
  · obtain ⟨rule, -, -, -, subject, -, rfl⟩ := mem_scriptDiagnostics.mp hd
    exact fits_of_line_eq_none rfl rfl

theorem ruleDiagnostics_filter_fit (v : ScriptVersion) (severity : Severity) :
    ∀ d ∈ (ruleDiagnostics v (mask script)).filter (fun d => d.severity == severity),
      d.Fits severity script := by
  intro d hd
  obtain ⟨hd, hseverity⟩ := List.mem_filter.mp hd
  rw [← beq_iff_eq.mp hseverity]
  exact ruleDiagnostics_fit v d hd

end Checks

structure ValidationResult.Fits (script : Text) (r : ValidationResult) : Prop where
  errors : ∀ d ∈ r.errors, d.Fits .error script
  warnings : ∀ d ∈ r.warnings, d.Fits .warning script

namespace ValidationSettings

variable {τ : Type} (settings : ValidationSettings τ)

def unfiltered :
    ValidationSettings τ := { settings with ignoredRules := [], warningsAsErrors := false }

def kept (ds : List Diagnostic) :
    List Diagnostic := ds.filter fun d => d.ruleId.toList ∉ settings.ignoredRules

theorem kept_eq (ds : List Diagnostic) :
    settings.kept ds = ds.filter fun d => !settings.ignoredRules.contains d.ruleId.toList := by
  refine List.filter_congr fun d _ => ?_
  rw [Bool.eq_iff_iff, decide_eq_true_iff, Bool.not_eq_true', ← Bool.not_eq_true,
    List.contains_iff_mem]

theorem filter_of_promoting (h : settings.warningsAsErrors = true) (r : ValidationResult) :
    settings.filter r =
      ⟨settings.kept r.errors ++ (settings.kept r.warnings).map Diagnostic.promoted, []⟩ := by
  rw [filter, h, kept_eq, kept_eq]
  rfl

theorem filter_of_not_promoting (h : settings.warningsAsErrors = false) (r : ValidationResult) :
    settings.filter r = ⟨settings.kept r.errors, settings.kept r.warnings⟩ := by
  rw [filter, h, kept_eq, kept_eq]
  rfl

theorem filter_unfiltered (r : ValidationResult) : settings.unfiltered.filter r = r := by
  have hall (ds : List Diagnostic) : settings.unfiltered.kept ds = ds :=
    List.filter_eq_self.mpr fun _ _ => decide_eq_true List.not_mem_nil
  rw [filter_of_not_promoting _ rfl, hall, hall]

end ValidationSettings

theorem ValidationResult.Fits.filter {τ : Type} (settings : ValidationSettings τ) {script : Text}
    {r : ValidationResult} (h : r.Fits script) : (settings.filter r).Fits script := by
  have hkept {severity : Severity} {ds : List Diagnostic} (h : ∀ d ∈ ds, d.Fits severity script) :
      ∀ d ∈ settings.kept ds, d.Fits severity script := fun d hd => h d (List.mem_filter.mp hd).1
  cases hpromoting : settings.warningsAsErrors with
  | true =>
    rw [settings.filter_of_promoting hpromoting]
    refine ⟨fun d hd => ?_, List.forall_mem_nil _⟩
    rcases List.mem_append.mp hd with hd | hd
    · exact hkept h.errors d hd
    · obtain ⟨w, hw, rfl⟩ := List.mem_map.mp hd
      exact (hkept h.warnings w hw).promoted
  | false =>
    rw [settings.filter_of_not_promoting hpromoting]
    exact ⟨hkept h.errors, hkept h.warnings⟩

section Results

variable {τ : Type} {settings : ValidationSettings τ} {fallback : ScriptVersion} {script : Text}
    {r : ValidationResult}

theorem diagnose_fits {found : Option FoundMarker} (h : findMarker script = .ok found)
    (settings : ValidationSettings τ) (fallback : ScriptVersion) (declared : Option ScriptVersion) :
    (diagnose settings fallback declared found script).Fits script := by
  constructor
  · intro d hd
    simp only [diagnose, List.mem_append] at hd
    rcases hd with (hd | hd) | hd
    · exact structuralDiagnostics_fit d hd
    · exact declarationDiagnostics_fit d hd
    · exact ruleDiagnostics_filter_fit _ _ d hd
  · intro d hd
    simp only [diagnose, List.mem_append] at hd
    rcases hd with (((hd | hd) | hd) | hd) | hd
    · exact markerWarnings_fit h _ _ d hd
    · exact commaWarnings_fit d hd
    · exact ruleDiagnostics_filter_fit _ _ d hd
    · exact lengthWarnings_fit _ _ d hd
    · exact sizeWarnings_fit _ d hd

theorem blankResult_fits (script : Text) : blankResult.Fits script := by
  refine ⟨fun d hd => ?_, List.forall_mem_nil _⟩
  cases List.mem_singleton.mp hd
  exact fits_of_line_eq_none rfl rfl

variable {κ : Type} [Timeline τ] [Clock κ τ]

theorem validateHeard_fits {listening : Bool} {declared : Option ScriptVersion}
    {budget : Option τ} {clock : κ}
    (h : (validateHeard listening settings fallback declared budget clock script).outcome = .ok r) :
    r.Fits script := by
  rcases validateHeard_ok settings fallback declared listening budget clock h with ⟨-,
    rfl⟩ | ⟨found, -, hfound, rfl⟩
  · exact (blankResult_fits script).filter settings
  · exact (diagnose_fits hfound settings fallback declared).filter settings

/-- Rules are ignored and warnings promoted when everything else is done: until then a validation
does not look at these settings. -/
theorem validateHeard_filter (listening : Bool) (settings : ValidationSettings τ)
    (fallback : ScriptVersion) (declared : Option ScriptVersion) (budget : Option τ) (clock : κ)
    (script : Text) :
    (validateHeard listening settings fallback declared budget clock script).outcome =
      (validateHeard listening settings.unfiltered fallback declared budget clock
        script).outcome.map settings.filter := by
  let t : Tracker τ κ :=
    .start (budget.getD settings.maxTime) settings.progressInterval listening clock
  have hrun : (validateHeard listening settings fallback declared budget clock script).outcome =
      (Course.checks settings fallback declared script t).1 := rfl
  have hunfiltered :
    (validateHeard listening settings.unfiltered fallback declared budget clock script).outcome =
      (Course.checks settings.unfiltered fallback declared script t).1 := rfl
  have hsame : Course.findings settings.unfiltered fallback declared script t =
      Course.findings settings fallback declared script t := rfl
  rw [hrun, hunfiltered, Course.checks_apply, Course.checks_apply, hsame]
  cases Course.findings settings fallback declared script t with
  | mk outcome t' =>
    cases outcome with
    | ok r => exact congrArg (fun r =>
        Except.ok (settings.filter r)) (settings.filter_unfiltered r).symm
    | error e => rfl

theorem validateWith_filter (listening : Bool) (settings : ValidationSettings τ)
    (fallback : ScriptVersion) (declared : Option Json) (budget : Option τ) (clock : κ)
    (script : Text) :
    (validateWith listening settings fallback declared budget clock script).outcome =
      (validateWith listening settings.unfiltered fallback declared budget clock script).outcome.map
        settings.filter := by
  rw [validateWith, validateWith]
  cases declaredVersion declared with
  | ok version => exact validateHeard_filter listening settings fallback version budget clock script
  | error e => rfl

theorem validateWith_fits {listening : Bool} {declared : Option Json}
    {budget : Option τ} {clock : κ}
    (h : (validateWith listening settings fallback declared budget clock script).outcome = .ok r) :
    r.Fits script := by
  rw [validateWith] at h
  split at h
  · exact validateHeard_fits h
  · cases h

end Results

/-- A result is valid exactly if it has no errors, its errors and warnings have the severity of
their list, and every line that they name is one of the script. Under the same settings with no rule
ignored and no warning promoted there is a result too, of which the settings keep the diagnostics
whose rules are not ignored, in their order, and promote the warnings behind the errors if they say
so. -/
theorem validate_result_fits {τ κ : Type} [Timeline τ] [Clock κ τ] {listening : Bool}
    {settings : ValidationSettings τ} {fallback : ScriptVersion} {declared : Option Json}
    {budget : Option τ} {clock : κ} {script : Text} {r : ValidationResult}
    (h : (validateWith listening settings fallback declared budget clock script).outcome = .ok r) :
    (r.valid = true ↔ r.errors = []) ∧ r.Fits script ∧
      ∃ all, (validateWith listening settings.unfiltered fallback declared budget clock
        script).outcome = .ok all ∧
        (settings.warningsAsErrors = true → r.warnings = [] ∧
          r.errors = settings.kept all.errors ++
            (settings.kept all.warnings).map Diagnostic.promoted) ∧
        (settings.warningsAsErrors = false → r.errors = settings.kept all.errors ∧ r.warnings =
          settings.kept all.warnings) := by
  refine ⟨List.isEmpty_iff, validateWith_fits h, ?_⟩
  rw [validateWith_filter] at h
  cases hall :
    (validateWith listening settings.unfiltered fallback declared budget clock script).outcome with
  | error e =>
    rw [hall] at h
    cases h
  | ok all =>
    rw [hall] at h
    cases h
    refine ⟨all, rfl, fun hpromoting => ?_, fun hpromoting => ?_⟩
    · rw [settings.filter_of_promoting hpromoting]
      exact ⟨rfl, rfl⟩
    · rw [settings.filter_of_not_promoting hpromoting]
      exact ⟨rfl, rfl⟩

/-- The bracket that stays open is ignored, and the missing marker becomes an error. -/
theorem validate_result_fits_promoted :
    let script := "indicator(\"x\")\nplot(close".toList
    let settings : ValidationSettings Float := ⟨120, 180.0, 1.0, 50000, true, ["PS2003".toList]⟩
    ∃ r all, (validateWith true settings .v5 none none (⟨0.0, 0.5⟩ : SteadyClock) script).outcome =
      .ok r ∧
      r.valid = false ∧ r.Fits script ∧
      (validateWith true settings.unfiltered .v5 none none
        (⟨0.0, 0.5⟩ : SteadyClock) script).outcome = .ok all ∧
      r.warnings = [] ∧ r.errors = settings.kept all.errors ++
        (settings.kept all.warnings).map Diagnostic.promoted := by
  intro script settings
  have hrules :
    (validateWith true settings .v5 none none
    (⟨0.0, 0.5⟩ : SteadyClock) script).outcome.toOption.map
      (fun r => r.errors.map Diagnostic.ruleId) = some ["PS1001"] := by decide +kernel
  cases hr : (validateWith true settings .v5 none none
    (⟨0.0, 0.5⟩ : SteadyClock) script).outcome with
  | error e =>
    rw [hr] at hrules
    cases hrules
  | ok r =>
    rw [hr] at hrules
    obtain ⟨hvalid, hfits, all, hall, hpromoted, -⟩ := validate_result_fits hr
    obtain ⟨hwarnings, herrors⟩ := hpromoted rfl
    refine ⟨r, all, rfl, ?_, hfits, hall, hwarnings, herrors⟩
    rw [← Bool.not_eq_true, hvalid]
    intro hnone
    rw [Except.toOption, Option.map_some, hnone] at hrules
    cases hrules

end PineTools
