import PineTools.Proofs.Scan.Nesting
import PineTools.Proofs.Scan.White
import PineTools.Proofs.Validate.Course

/-! The structural errors of a validation. They are absent exactly if the script is well formed,
which is when nothing is counted as a structural defect, and each kind of defect has its own rules.
-/
namespace PineTools

/-- Brackets in code nest, literals end on their lines and the last comment is ended. -/
structure WellFormed (t : Text) : Prop where
  nested : WellNested (codeBrackets t)
  literals : LiteralsEnd t
  comment : (modeAt t t.length).inBlock = false

theorem structuralImbalance_eq_zero_iff (t : Text) : structuralImbalance t = 0 ↔ WellFormed t := by
  have hcomment : (if (openComment? t).isSome then 1 else 0) = 0 ↔
      (modeAt t t.length).inBlock = false := by
    rw [openComment?_isSome_iff]
    cases (modeAt t t.length).inBlock <;> simp
  rw [structuralImbalance, Nat.add_eq_zero_iff, Nat.add_eq_zero_iff, Nat.add_eq_zero_iff,
    List.length_eq_zero_iff, List.length_eq_zero_iff, List.length_eq_zero_iff, hcomment,
    matchBrackets_eq_nil_iff, unclosedLiterals_eq_nil_iff]
  constructor
  · rintro ⟨⟨hnested, hliterals⟩, hcomment⟩
    exact ⟨hnested, hliterals, hcomment⟩
  · exact fun h => ⟨⟨h.nested, h.literals⟩, h.comment⟩

theorem structuralDiagnostics_eq_nil_iff (t : Text) :
    structuralDiagnostics t = [] ↔ structuralImbalance t = 0 := by
  have hunclosed (unclosed : List OpenBracket) : unclosedDiagnostics unclosed = [] ↔
      unclosed.length = 0 := by
    cases unclosed <;> simp [unclosedDiagnostics]
  have hcomment (openLine : Option Nat) :
      commentDiagnostics openLine = [] ↔ (if openLine.isSome then 1 else 0) = 0 := by
    cases openLine <;> simp [commentDiagnostics]
  rw [structuralDiagnostics, structuralImbalance, List.append_eq_nil_iff, List.append_eq_nil_iff,
    List.append_eq_nil_iff, List.map_eq_nil_iff, List.map_eq_nil_iff, hunclosed, hcomment,
    ← List.length_eq_zero_iff, ← List.length_eq_zero_iff]
  omega

theorem after_white {w : Text} (h : ∀ c ∈ w, Text.isSpace c = true) (ahead : Option Char) :
    ∃ b, Mode.start.after ahead w = .code b := by
  suffices hw : ∀ b, ∃ b', (Mode.code b).after ahead w = .code b' from hw false
  intro b
  induction w generalizing b with
  | nil => exact ⟨b, rfl⟩
  | cons c w ih =>
    rw [after_code_white b (h c List.mem_cons_self)]
    exact ih (fun d hd => h d (List.mem_cons_of_mem c hd)) false

theorem wellFormed_of_blank {t : Text} (h : Text.isAllSpace t = true) : WellFormed t := by
  have hwhite : ∀ c ∈ t, Text.isSpace c = true := List.all_eq_true.mp h
  have hmode (i : Nat) : ∃ b, modeAt t i = .code b :=
    after_white (fun c hc => hwhite c (List.mem_of_mem_take hc)) _
  refine ⟨?_, fun i _ _ => ?_, ?_⟩
  · have hcells : (cells t).filter Cell.isBracket = [] := by
      rw [List.filter_eq_nil_iff]
      intro c hc
      have hchar : c.char ∈ t := by
        rw [← cellsFrom_chars .start t]
        exact List.mem_map_of_mem hc
      have hspace := hwhite c.char hchar
      simp [Cell.isBracket, isOpener, isCloser, Bracket.ofOpener?_white hspace,
        Bracket.ofCloser?_white hspace]
    rw [codeBrackets, hcells]
    exact .nil
  · obtain ⟨b, hb⟩ := hmode i
    rw [hb]
    rfl
  · obtain ⟨b, hb⟩ := hmode t.length
    rw [hb]
    rfl

def structuralRules : List String := ["PS2001", "PS2002", "PS2003", "PS2004", "PS2005"]

namespace Diagnostic

/-- The diagnostic has nothing to do with the structure of the script. -/
def Foreign (d : Diagnostic) : Prop := d.category ≠ .structural ∧ d.ruleId ∉ structuralRules

theorem Foreign.promoted {d : Diagnostic} (h : d.Foreign) : d.promoted.Foreign := h

theorem foreign_error {category : Category} {ruleId : String} (message : String) (line : Option Nat)
    (h : category ≠ .structural ∧ ruleId ∉ structuralRules) :
    (Diagnostic.error category ruleId message line).Foreign := h

theorem foreign_warning {category : Category} {ruleId : String} (message : String)
    (line : Option Nat) (h : category ≠ .structural ∧ ruleId ∉ structuralRules) :
    (Diagnostic.warning category ruleId message line).Foreign := h

end Diagnostic

open Diagnostic

theorem markerWarnings_foreign (found : Option FoundMarker) (declared : Option ScriptVersion)
    (fallback : ScriptVersion) :
    ∀ d ∈ markerWarnings found declared fallback, d.Foreign := by
  intro d hd
  unfold markerWarnings at hd
  split at hd
  · cases List.mem_singleton.mp hd
    exact foreign_warning _ _ (by decide)
  · split at hd
    · cases List.mem_singleton.mp hd
      exact foreign_warning _ _ (by decide)
    · cases hd
    · split at hd
      · cases hd
      · cases List.mem_singleton.mp hd
        exact foreign_warning _ _ (by decide)

theorem declarationDiagnostics_foreign (found : List Declaration) :
    ∀ d ∈ declarationDiagnostics found, d.Foreign := by
  intro d hd
  unfold declarationDiagnostics at hd
  split at hd
  · cases List.mem_singleton.mp hd
    exact foreign_error _ _ (by decide)
  · cases hd
  · cases List.mem_singleton.mp hd
    exact foreign_error _ _ (by decide)

theorem lengthWarnings_foreign (limit : Nat) (script : Text) :
    ∀ d ∈ lengthWarnings "PS1301" limit script, d.Foreign := by
  intro d hd
  obtain ⟨p, -, hp⟩ := List.mem_filterMap.mp hd
  dsimp only at hp
  split at hp
  · cases hp
    exact foreign_warning _ _ (by decide)
  · cases hp

theorem sizeWarnings_foreign (threshold : Nat) (script : Text) :
    ∀ d ∈ sizeWarnings threshold script, d.Foreign := by
  intro d hd
  rw [sizeWarnings] at hd
  split at hd
  · cases List.mem_singleton.mp hd
    exact foreign_warning _ _ (by decide)
  · cases hd

theorem versionRules_foreign :
    ∀ rule ∈ versionRules, rule.category ≠ .structural ∧ rule.id ∉ structuralRules := by
  decide

theorem ruleDiagnostics_foreign (v : ScriptVersion) (masked : Text) :
    ∀ d ∈ ruleDiagnostics v masked, d.Foreign := by
  have hrule {rule : VersionRule} (hr : rule ∈ rulesFor v none) (subject : Text)
    (line : Option Nat) :
      (rule.diagnostic subject line).Foreign :=
    versionRules_foreign rule (List.mem_filter.mp hr).1
  intro d hd
  rw [ruleDiagnostics, List.mem_append, List.mem_flatMap] at hd
  rcases hd with ⟨p, -, hd⟩ | hd
  · rw [lineDiagnostics] at hd
    split at hd
    · cases hd
    · obtain ⟨rule, hr, hd⟩ := List.mem_filterMap.mp hd
      split at hd
      · obtain ⟨subject, -, rfl⟩ := Option.map_eq_some_iff.mp hd
        exact hrule hr subject _
      · cases hd
  · obtain ⟨rule, hr, hd⟩ := List.mem_filterMap.mp hd
    split at hd
    · cases hd
    · obtain ⟨subject, -, rfl⟩ := Option.map_eq_some_iff.mp hd
      exact hrule hr subject _

section Results

variable {τ : Type} {settings : ValidationSettings τ} {script : Text} {r : ValidationResult}

/-- The errors of the result begin with those about the structure of the script, and the others have
nothing to do with it. -/
def ReportsStructure (script : Text) (r : ValidationResult) : Prop :=
  ∃ others, r.errors = structuralDiagnostics script ++ others ∧ ∀ d ∈ others, d.Foreign

theorem filter_none_ignored (hnone : settings.ignoredRules = []) (ds : List Diagnostic) :
    ds.filter (fun d => !settings.ignoredRules.contains d.ruleId.toList) = ds := by
  rw [hnone]
  exact List.filter_eq_self.mpr fun _ _ => rfl

theorem ReportsStructure.filter (hnone : settings.ignoredRules = []) (h : ReportsStructure script r)
    (hwarnings : ∀ d ∈ r.warnings, d.Foreign) : ReportsStructure script (settings.filter r) := by
  obtain ⟨others, herrors, hothers⟩ := h
  rw [ValidationSettings.filter]
  simp only [filter_none_ignored hnone]
  split
  · refine ⟨others ++ r.warnings.map Diagnostic.promoted, by
      rw [herrors, List.append_assoc], fun d hd => ?_⟩
    rcases List.mem_append.mp hd with hd | hd
    · exact hothers d hd
    · obtain ⟨w, hw, rfl⟩ := List.mem_map.mp hd
      exact (hwarnings w hw).promoted
  · exact ⟨others, herrors, hothers⟩

theorem diagnose_reports (settings : ValidationSettings τ) (fallback : ScriptVersion)
    (declared : Option ScriptVersion) (found : Option FoundMarker) (script : Text) :
    ReportsStructure script (diagnose settings fallback declared found script) ∧
      ∀ d ∈ (diagnose settings fallback declared found script).warnings, d.Foreign := by
  have hrules := ruleDiagnostics_foreign (appliedVersion found declared fallback) (mask script)
  constructor
  · refine ⟨_, List.append_assoc .., fun d hd => ?_⟩
    rcases List.mem_append.mp hd with hd | hd
    · exact declarationDiagnostics_foreign _ d hd
    · exact hrules d (List.mem_filter.mp hd).1
  · intro d hd
    simp only [diagnose, List.mem_append] at hd
    rcases hd with (((hd | hd) | hd) | hd) | hd
    · exact markerWarnings_foreign _ _ _ d hd
    · obtain ⟨c, -, rfl⟩ := List.mem_map.mp hd
      exact foreign_warning _ _ (by decide)
    · exact hrules d (List.mem_filter.mp hd).1
    · exact lengthWarnings_foreign _ _ d hd
    · exact sizeWarnings_foreign _ _ d hd

theorem blankResult_reports (h : Text.isAllSpace script = true) :
    ReportsStructure script blankResult := by
  have hnone : structuralDiagnostics script = [] :=
    (structuralDiagnostics_eq_nil_iff script).mpr
      ((structuralImbalance_eq_zero_iff script).mpr (wellFormed_of_blank h))
  refine ⟨blankResult.errors, by rw [hnone, List.nil_append], fun d hd => ?_⟩
  cases List.mem_singleton.mp hd
  exact foreign_error _ _ (by decide)

variable {κ : Type} [Timeline τ] [Clock κ τ]

theorem validate_reports {fallback : ScriptVersion} {declared : Option Json}
    {budget : Option τ} {clock : κ} (hnone : settings.ignoredRules = [])
    (h : (validate settings fallback declared budget clock script).outcome = .ok r) :
    ReportsStructure script r := by
  rw [validate, validateWith] at h
  split at h
  · next version _ =>
    rcases validateHeard_ok settings fallback version true budget clock h with ⟨hblank,
      rfl⟩ | ⟨found, -, -, rfl⟩
    · exact (blankResult_reports hblank).filter hnone fun d hd => by cases hd
    · obtain ⟨herrors, hwarnings⟩ := diagnose_reports settings fallback version found script
      exact herrors.filter hnone hwarnings
  · cases h

end Results

def fromRules (rules : List String) (ds : List Diagnostic) :
    List Diagnostic := ds.filter fun d => rules.contains d.ruleId

theorem fromRules_append (rules : List String) (ds ds' : List Diagnostic) :
    fromRules rules (ds ++ ds') = fromRules rules ds ++ fromRules rules ds' :=
  List.filter_append ..

def ValidationResult.errorsBy (r : ValidationResult) (rules : List String) :
    List Diagnostic := fromRules rules r.errors

def ReportedBy (rules : List String) (ds : List Diagnostic) : Prop :=
  ∀ d ∈ ds, d.category = .structural ∧ d.ruleId ∈ rules

section ReportedBy

variable {rules : List String} {ds : List Diagnostic}

theorem ReportedBy.fromRules_self (h : ReportedBy rules ds) : fromRules rules ds = ds :=
  List.filter_eq_self.mpr fun d hd => List.contains_iff_mem.mpr (h d hd).2

theorem ReportedBy.fromRules_none {others : List String} (h : ReportedBy rules ds)
    (hapart : ∀ id ∈ rules, id ∉ others) :
    fromRules others ds = [] :=
  List.filter_eq_nil_iff.mpr fun d hd hr => hapart d.ruleId (h d hd).2 (List.contains_iff_mem.mp hr)

end ReportedBy

theorem issues_reportedBy (issues : List BracketIssue) :
    ReportedBy ["PS2001", "PS2002"] (issues.map BracketIssue.diagnostic) := by
  intro d hd
  obtain ⟨i, -, rfl⟩ := List.mem_map.mp hd
  unfold BracketIssue.diagnostic
  split
  · exact ⟨rfl, List.mem_cons_self⟩
  · exact ⟨rfl, List.mem_cons_of_mem _ List.mem_cons_self⟩

theorem unclosed_reportedBy (unclosed : List OpenBracket) :
    ReportedBy ["PS2003"] (unclosedDiagnostics unclosed) := by
  intro d hd
  unfold unclosedDiagnostics at hd
  split at hd
  · cases hd
  · cases List.mem_singleton.mp hd
    exact ⟨rfl, List.mem_cons_self⟩

theorem comment_reportedBy (openLine : Option Nat) :
    ReportedBy ["PS2005"] (commentDiagnostics openLine) := by
  intro d hd
  unfold commentDiagnostics at hd
  split at hd
  · cases hd
  · cases List.mem_singleton.mp hd
    exact ⟨rfl, List.mem_cons_self⟩

theorem literals_reportedBy (unclosed : List UnclosedLiteral) :
    ReportedBy ["PS2004"] (unclosed.map UnclosedLiteral.diagnostic) := by
  intro d hd
  obtain ⟨u, -, rfl⟩ := List.mem_map.mp hd
  exact ⟨rfl, List.mem_cons_self⟩

theorem structuralDiagnostics_category (t : Text) :
    ∀ d ∈ structuralDiagnostics t, d.category = .structural := by
  intro d hd
  simp only [structuralDiagnostics, List.mem_append] at hd
  rcases hd with ((hd | hd) | hd) | hd
  · exact (issues_reportedBy _ d hd).1
  · exact (unclosed_reportedBy _ d hd).1
  · exact (comment_reportedBy _ d hd).1
  · exact (literals_reportedBy _ d hd).1

/-- Each of the four kinds of defects can be told by its rules. -/
theorem fromRules_structural (t : Text) :
    fromRules ["PS2001", "PS2002"] (structuralDiagnostics t) =
      (matchBrackets t).issues.map BracketIssue.diagnostic ∧
      fromRules ["PS2003"] (structuralDiagnostics t) =
        unclosedDiagnostics (matchBrackets t).unclosed ∧
      fromRules ["PS2004"] (structuralDiagnostics t) =
        (unclosedLiterals t).map UnclosedLiteral.diagnostic ∧
      fromRules ["PS2005"] (structuralDiagnostics t) = commentDiagnostics (openComment? t) := by
  have hissues := issues_reportedBy (matchBrackets t).issues
  have hunclosed := unclosed_reportedBy (matchBrackets t).unclosed
  have hcomment := comment_reportedBy (openComment? t)
  have hliterals := literals_reportedBy (unclosedLiterals t)
  simp only [structuralDiagnostics, fromRules_append]
  refine ⟨?_, ?_, ?_, ?_⟩
  · rw [hissues.fromRules_self, hunclosed.fromRules_none (by decide),
      hcomment.fromRules_none (by decide), hliterals.fromRules_none (by decide), List.append_nil,
      List.append_nil, List.append_nil]
  · rw [hissues.fromRules_none (by decide), hunclosed.fromRules_self,
      hcomment.fromRules_none (by decide), hliterals.fromRules_none (by decide), List.nil_append,
      List.append_nil, List.append_nil]
  · rw [hissues.fromRules_none (by decide), hunclosed.fromRules_none (by decide),
      hcomment.fromRules_none (by decide), hliterals.fromRules_self, List.nil_append,
      List.nil_append, List.nil_append]
  · rw [hissues.fromRules_none (by decide), hunclosed.fromRules_none (by decide),
      hcomment.fromRules_self, hliterals.fromRules_none (by decide), List.nil_append,
      List.nil_append, List.append_nil]

section Reports

variable {script : Text} {r : ValidationResult}

theorem ReportsStructure.errorsIn (h : ReportsStructure script r) :
    r.errorsIn .structural = structuralDiagnostics script := by
  obtain ⟨others, herrors, hothers⟩ := h
  have hown : (structuralDiagnostics script).filter (fun d => d.category == .structural) =
      structuralDiagnostics script :=
    List.filter_eq_self.mpr fun d hd => beq_iff_eq.mpr (structuralDiagnostics_category script d hd)
  have hnone : others.filter (fun d => d.category == .structural) = [] :=
    List.filter_eq_nil_iff.mpr fun d hd hc => (hothers d hd).1 (beq_iff_eq.mp hc)
  rw [ValidationResult.errorsIn, herrors, List.filter_append, hown, hnone, List.append_nil]

theorem ReportsStructure.errorsBy (h : ReportsStructure script r) {rules : List String}
    (hrules : rules ⊆ structuralRules) :
    r.errorsBy rules = fromRules rules (structuralDiagnostics script) := by
  obtain ⟨others, herrors, hothers⟩ := h
  have hnone : fromRules rules others = [] :=
    List.filter_eq_nil_iff.mpr fun d hd hr =>
      (hothers d hd).2 (hrules (List.contains_iff_mem.mp hr))
  rw [ValidationResult.errorsBy, herrors, fromRules_append, hnone, List.append_nil]

end Reports

theorem unclosedDiagnostics_count {unclosed : List OpenBracket} (h : unclosed ≠ []) :
    ∃ d rest, unclosedDiagnostics unclosed = [d] ∧ d.message =
      s!"Missing {unclosed.length} closing bracket" ++ rest := by
  cases unclosed with
  | nil => exact absurd rfl h
  | cons first others =>
    refine ⟨_, ?rest, rfl, ?message⟩
    case message =>
      simp only [Diagnostic.error, String.append_assoc]
      rfl

/-- A validation that gives a result and ignores no rule reports no structural error exactly if the
script is well formed, which is when it has no structural defect. Closers that do not fit are
reported one by one, and so are open literals. An open comment is reported, and all open brackets by
one error that counts them. -/
theorem validate_structure_exact {τ κ : Type} [Timeline τ] [Clock κ τ]
    {settings : ValidationSettings τ} {fallback : ScriptVersion} {declared : Option Json}
    {budget : Option τ} {clock : κ} {script : Text} {r : ValidationResult}
    (hnone : settings.ignoredRules = [])
    (h : (validate settings fallback declared budget clock script).outcome = .ok r) :
    (r.errorsIn .structural = [] ↔ WellFormed script) ∧
      (r.errorsIn .structural = [] ↔ structuralImbalance script = 0) ∧
      (r.errorsBy ["PS2001", "PS2002"]).length = (matchBrackets script).issues.length ∧
      r.errorsBy ["PS2004"] = (unclosedLiterals script).map UnclosedLiteral.diagnostic ∧
      (r.errorsBy ["PS2005"] ≠ [] ↔ (modeAt script script.length).inBlock = true) ∧
      ((matchBrackets script).unclosed = [] → r.errorsBy ["PS2003"] = []) ∧
      ((matchBrackets script).unclosed ≠ [] → ∃ d rest, r.errorsBy ["PS2003"] = [d] ∧
        d.message = s!"Missing {(matchBrackets script).unclosed.length} closing bracket" ++
          rest) := by
  have hreports := validate_reports hnone h
  obtain ⟨hissues, hunclosed, hliterals, hcomment⟩ := fromRules_structural script
  rw [hreports.errorsIn, hreports.errorsBy (by decide), hreports.errorsBy (by decide),
    hreports.errorsBy (by decide), hreports.errorsBy (by decide), hissues, hunclosed, hliterals,
    hcomment, structuralDiagnostics_eq_nil_iff]
  refine ⟨structuralImbalance_eq_zero_iff script, Iff.rfl, List.length_map _, rfl, ?_, ?_,
    unclosedDiagnostics_count⟩
  · rw [← openComment?_isSome_iff]
    cases openComment? script <;> simp [commentDiagnostics]
  · intro hempty
    rw [hempty]
    rfl

/-- A closer that does not fit, an opener that stays open, an open literal and an open comment. -/
theorem validate_structure_exact_slips :
    let script := "f([)\n\"a\n/*".toList
    let settings : ValidationSettings Float := ⟨120, 180.0, 1.0, 50000, true, []⟩
    ∃ r, settings.ignoredRules = [] ∧
      (validate settings .v5 none none (⟨0.0, 0.5⟩ : SteadyClock) script).outcome = .ok r ∧
      r.errorsIn .structural ≠ [] ∧ (r.errorsBy ["PS2001", "PS2002"]).length = 1 ∧
      (r.errorsBy ["PS2004"]).length = 1 ∧
      r.errorsBy ["PS2005"] ≠ [] ∧
      ∃ d rest, r.errorsBy ["PS2003"] = [d] ∧ d.message = "Missing 1 closing bracket" ++ rest := by
  intro script settings
  have hok : (validate settings .v5 none none (⟨0.0, 0.5⟩ : SteadyClock) script).outcome.isOk =
      true := by decide +kernel
  cases hr : (validate settings .v5 none none (⟨0.0, 0.5⟩ : SteadyClock) script).outcome with
  | error e =>
    rw [hr] at hok
    cases hok
  | ok r =>
    obtain ⟨-, hdefects, hissues, hliterals, hcomment, -, hunclosed⟩ :=
      validate_structure_exact rfl hr
    refine ⟨r, rfl, rfl, ?_, ?_, ?_, ?_, ?_⟩
    · rw [Ne, hdefects]
      decide +kernel
    · rw [hissues]
      decide +kernel
    · rw [hliterals]
      decide +kernel
    · rw [hcomment]
      decide +kernel
    · have hcount : s!"Missing {(matchBrackets script).unclosed.length} closing bracket" =
          "Missing 1 closing bracket" := by
        decide +kernel
      rw [hcount] at hunclosed
      exact hunclosed (by decide +kernel)

end PineTools
