import Mathlib.Data.List.Nodup
import PineTools.Proofs.Construct.Demands
import PineTools.Proofs.Pattern.Seen
import PineTools.Proofs.Scan.Mask
import PineTools.Proofs.Validate.Structural

/-! Which rules fire for a script, and which scripts are accepted. A rule that belongs to some
versions fires when one line of the mask, or the mask, gives it a subject. A script is accepted when
its structure is sound, one line of its mask declares it, and no rule that reports errors fires. -/
namespace PineTools

open Reader

section Rules

variable {masked : Text}

/-- The rule has something to say about a masked script. -/
def VersionRule.fires (rule : VersionRule) (masked : Text) : Bool :=
  match rule.check with
  | .line subject? => (Text.lines masked).any fun code => !Text.isAllSpace code &&
      (subject? code masked).isSome
  | .script subject? => (subject? masked).isSome

theorem mem_lineDiagnostics {rules : List VersionRule} {code : Text} {number : Nat}
    {d : Diagnostic} :
    d ∈ lineDiagnostics rules masked code number ↔ Text.isAllSpace code = false ∧
      ∃ rule ∈ rules, ∃ subject?, rule.check = .line subject? ∧
        ∃ subject, subject? code masked = some subject ∧
        d = rule.diagnostic subject (some number) := by
  rw [lineDiagnostics]
  split
  case isTrue hspace =>
    refine ⟨fun h => absurd h List.not_mem_nil, fun h => ?_⟩
    rw [hspace] at h
    cases h.1
  case isFalse hspace =>
    rw [List.mem_filterMap]
    constructor
    · rintro ⟨rule, hrule, h⟩
      refine ⟨Bool.eq_false_iff.mpr hspace, rule, hrule, ?_⟩
      split at h
      case h_1 subject? hcheck =>
        obtain ⟨subject, hs, rfl⟩ := Option.map_eq_some_iff.mp h
        exact ⟨subject?, hcheck, subject, hs, rfl⟩
      case h_2 => cases h
    · rintro ⟨-, rule, hrule, subject?, hcheck, subject, hs, rfl⟩
      refine ⟨rule, hrule, ?_⟩
      rw [hcheck]
      exact Option.map_eq_some_iff.mpr ⟨subject, hs, rfl⟩

theorem mem_scriptDiagnostics {rules : List VersionRule} {d : Diagnostic} :
    d ∈ scriptDiagnostics rules masked ↔ ∃ rule ∈ rules, ∃ subject?, rule.check = .script subject? ∧
      ∃ subject, subject? masked = some subject ∧ d = rule.diagnostic subject none := by
  rw [scriptDiagnostics, List.mem_filterMap]
  constructor
  · rintro ⟨rule, hrule, h⟩
    refine ⟨rule, hrule, ?_⟩
    split at h
    case h_1 => cases h
    case h_2 subject? hcheck =>
      obtain ⟨subject, hs, rfl⟩ := Option.map_eq_some_iff.mp h
      exact ⟨subject?, hcheck, subject, hs, rfl⟩
  · rintro ⟨rule, hrule, subject?, hcheck, subject, hs, rfl⟩
    refine ⟨rule, hrule, ?_⟩
    rw [hcheck]
    exact Option.map_eq_some_iff.mpr ⟨subject, hs, rfl⟩

theorem exists_ruleDiagnostics_iff (P : Severity → String → Prop) (v : ScriptVersion)
    (masked : Text) :
    (∃ d ∈ ruleDiagnostics v masked, P d.severity d.ruleId) ↔
      ∃ rule ∈ versionRules, v ∈ rule.versions ∧ rule.fires masked = true ∧
      P rule.severity rule.id := by
  have hrules {rule : VersionRule} : rule ∈ rulesFor v none ↔ rule ∈ versionRules ∧
      v ∈ rule.versions := by
    rw [rulesFor, List.mem_filter, Option.all_none, Bool.and_true, List.contains_iff_mem]
  constructor
  · rintro ⟨d, hd, hP⟩
    rw [ruleDiagnostics, List.mem_append, List.mem_flatMap] at hd
    rcases hd with ⟨p, hp, hd⟩ | hd
    · obtain ⟨hspace, rule, hrule, subject?, hcheck, subject, hs, rfl⟩ := mem_lineDiagnostics.mp hd
      refine ⟨rule, (hrules.mp hrule).1, (hrules.mp hrule).2, ?_, hP⟩
      rw [VersionRule.fires, hcheck]
      refine List.any_eq_true.mpr ⟨p.1, List.fst_mem_of_mem_zipIdx hp, ?_⟩
      rw [hspace, hs]
      rfl
    · obtain ⟨rule, hrule, subject?, hcheck, subject, hs, rfl⟩ := mem_scriptDiagnostics.mp hd
      refine ⟨rule, (hrules.mp hrule).1, (hrules.mp hrule).2, ?_, hP⟩
      rw [VersionRule.fires, hcheck]
      exact Option.isSome_iff_exists.mpr ⟨subject, hs⟩
  · rintro ⟨rule, hrule, hv, hfires, hP⟩
    have hmem := hrules.mpr ⟨hrule, hv⟩
    rw [VersionRule.fires] at hfires
    split at hfires
    case h_1 subject? hcheck =>
      obtain ⟨code, hcode, hfires⟩ := List.any_eq_true.mp hfires
      obtain ⟨hspace, hsome⟩ := Bool.and_eq_true_iff.mp hfires
      obtain ⟨subject, hs⟩ := Option.isSome_iff_exists.mp hsome
      obtain ⟨i, hi⟩ := List.getElem?_of_mem hcode
      refine ⟨rule.diagnostic subject (some (i + 1)), ?_, hP⟩
      rw [ruleDiagnostics, List.mem_append, List.mem_flatMap]
      refine .inl ⟨(code, i), List.mem_zipIdx_iff_getElem?.mpr hi, ?_⟩
      exact mem_lineDiagnostics.mpr
        ⟨by simpa using hspace, rule, hmem, subject?, hcheck, subject, hs, rfl⟩
    case h_2 subject? hcheck =>
      obtain ⟨subject, hs⟩ := Option.isSome_iff_exists.mp hfires
      refine ⟨rule.diagnostic subject none, ?_, hP⟩
      rw [ruleDiagnostics, List.mem_append]
      exact .inr (mem_scriptDiagnostics.mpr ⟨rule, hmem, subject?, hcheck, subject, hs, rfl⟩)

theorem nodup_ruleIds : (versionRules.map VersionRule.id).Nodup := by decide

theorem fires_of_ruleId {rule : VersionRule} (hrule : rule ∈ versionRules) (v : ScriptVersion)
    (masked : Text) :
    (∃ d ∈ ruleDiagnostics v masked, d.ruleId = rule.id) ↔ v ∈ rule.versions ∧
    rule.fires masked = true := by
  refine (exists_ruleDiagnostics_iff (fun _ id => id = rule.id) v masked).trans
    ⟨?_, fun h => ⟨rule, hrule, h.1, h.2, rfl⟩⟩
  rintro ⟨rule', hrule', hv, hfires, hid⟩
  obtain rfl := List.inj_on_of_nodup_map nodup_ruleIds hrule' hrule hid
  exact ⟨hv, hfires⟩

def commonRuleIds : List String :=
  structuralRules ++ ["PS0001", "PS1001", "PS1002", "PS1003", "PS1101", "PS1102", "PS1201",
    "PS1301", "PS1302"]

theorem ruleId_not_common : ∀ rule ∈ versionRules, rule.id ∉ commonRuleIds := by decide

end Rules

section Results

variable {τ : Type} {settings : ValidationSettings τ} {fallback : ScriptVersion}
    {declared : Option ScriptVersion}
  {found : Option FoundMarker} {script : Text}

theorem markerWarnings_common :
    ∀ d ∈ markerWarnings found declared fallback, d.ruleId ∈ commonRuleIds := by
  intro d hd
  unfold markerWarnings at hd
  split at hd
  · cases List.mem_singleton.mp hd
    exact (by decide : "PS1001" ∈ commonRuleIds)
  · split at hd
    · cases List.mem_singleton.mp hd
      exact (by decide : "PS1002" ∈ commonRuleIds)
    · cases hd
    · split at hd
      · cases hd
      · cases List.mem_singleton.mp hd
        exact (by decide : "PS1003" ∈ commonRuleIds)

theorem declarationDiagnostics_common (declared : List Declaration) :
    ∀ d ∈ declarationDiagnostics declared, d.ruleId ∈ commonRuleIds := by
  intro d hd
  unfold declarationDiagnostics at hd
  split at hd
  · cases List.mem_singleton.mp hd
    exact (by decide : "PS1101" ∈ commonRuleIds)
  · cases hd
  · cases List.mem_singleton.mp hd
    exact (by decide : "PS1102" ∈ commonRuleIds)

theorem structuralDiagnostics_common :
    ∀ d ∈ structuralDiagnostics script, d.ruleId ∈ commonRuleIds := by
  have hrules {rules : List String} {ds : List Diagnostic} (h : ReportedBy rules ds)
    (hrules : rules ⊆ commonRuleIds) :
      ∀ d ∈ ds, d.ruleId ∈ commonRuleIds := fun d hd => hrules (h d hd).2
  intro d hd
  simp only [structuralDiagnostics, List.mem_append] at hd
  rcases hd with ((hd | hd) | hd) | hd
  · exact hrules (issues_reportedBy _) (by decide) d hd
  · exact hrules (unclosed_reportedBy _) (by decide) d hd
  · exact hrules (comment_reportedBy _) (by decide) d hd
  · exact hrules (literals_reportedBy _) (by decide) d hd

theorem lengthWarnings_common (limit : Nat) :
    ∀ d ∈ lengthWarnings "PS1301" limit script, d.ruleId ∈ commonRuleIds := by
  intro d hd
  obtain ⟨p, -, hp⟩ := List.mem_filterMap.mp hd
  dsimp only at hp
  split at hp
  · cases hp
    exact (by decide : "PS1301" ∈ commonRuleIds)
  · cases hp

theorem sizeWarnings_common (threshold : Nat) :
    ∀ d ∈ sizeWarnings threshold script, d.ruleId ∈ commonRuleIds := by
  intro d hd
  rw [sizeWarnings] at hd
  split at hd
  · cases List.mem_singleton.mp hd
    exact (by decide : "PS1302" ∈ commonRuleIds)
  · cases hd

/-- What a validation says comes from the rules of the version, or from one that all versions have.
-/
theorem diagnose_common : ∀ d ∈ (diagnose settings fallback declared found script).errors ++
      (diagnose settings fallback declared found script).warnings,
    d ∈ ruleDiagnostics (appliedVersion found declared fallback) (mask script) ∨
    d.ruleId ∈ commonRuleIds := by
  intro d hd
  simp only [diagnose, List.mem_append] at hd
  rcases hd with ((hd | hd) | hd) | ((((hd | hd) | hd) | hd) | hd)
  · exact .inr (structuralDiagnostics_common d hd)
  · exact .inr (declarationDiagnostics_common _ d hd)
  · exact .inl (List.mem_filter.mp hd).1
  · exact .inr (markerWarnings_common d hd)
  · obtain ⟨c, -, rfl⟩ := List.mem_map.mp hd
    exact .inr (by decide : "PS1201" ∈ commonRuleIds)
  · exact .inl (List.mem_filter.mp hd).1
  · exact .inr (lengthWarnings_common _ d hd)
  · exact .inr (sizeWarnings_common _ d hd)

theorem mem_diagnose_of_rule {d : Diagnostic}
    (hd : d ∈ ruleDiagnostics (appliedVersion found declared fallback) (mask script)) :
    d ∈ (diagnose settings fallback declared found script).errors ++
      (diagnose settings fallback declared found script).warnings := by
  simp only [diagnose, List.mem_append, List.mem_filter, hd, true_and, beq_iff_eq]
  cases d.severity with
  | error => exact .inl (.inr rfl)
  | warning => exact .inr (.inl (.inl (.inr rfl)))

/-- Without ignored rules the settings keep every diagnostic, at most with another severity. -/
theorem hasRule_filter (hnone : settings.ignoredRules = []) (r : ValidationResult) (ruleId : Text) :
    (settings.filter r).hasRule ruleId = r.hasRule ruleId := by
  rw [ValidationSettings.filter]
  simp only [filter_none_ignored hnone]
  split
  · rw [ValidationResult.hasRule, ValidationResult.hasRule, List.append_nil, List.any_append,
      List.any_append, List.any_map]
    rfl
  · rfl

theorem hasRule_of_filter (r : ValidationResult) {ruleId : Text}
    (h : (settings.filter r).hasRule ruleId = true) :
    r.hasRule ruleId = true := by
  obtain ⟨d, hd, hid⟩ := List.any_eq_true.mp h
  apply List.any_eq_true.mpr
  rw [ValidationSettings.filter] at hd
  split at hd
  · simp only [List.append_nil, List.mem_append, List.mem_map] at hd
    rcases hd with hd | ⟨w, hw, rfl⟩
    · exact ⟨d, List.mem_append_left _ (List.mem_of_mem_filter hd), hid⟩
    · exact ⟨w, List.mem_append_right _ (List.mem_of_mem_filter hw), hid⟩
  · rcases List.mem_append.mp hd with hd | hd
    · exact ⟨d, List.mem_append_left _ (List.mem_of_mem_filter hd), hid⟩
    · exact ⟨d, List.mem_append_right _ (List.mem_of_mem_filter hd), hid⟩

theorem diagnose_hasRule_iff {rule : VersionRule} (hrule : rule ∈ versionRules) :
    (diagnose settings fallback declared found script).hasRule rule.id.toList = true ↔
      appliedVersion found declared fallback ∈ rule.versions ∧ rule.fires (mask script) = true := by
  rw [← fires_of_ruleId hrule, ValidationResult.hasRule, List.any_eq_true]
  refine ⟨fun ⟨d, hd, hid⟩ => ?_, fun ⟨d, hd, hid⟩ =>
    ⟨d, mem_diagnose_of_rule hd, beq_iff_eq.mpr (congrArg String.toList hid)⟩⟩
  have hid : d.ruleId = rule.id := String.toList_inj.mp (beq_iff_eq.mp hid)
  rcases diagnose_common d hd with hd | hcommon
  · exact ⟨d, hd, hid⟩
  · exact absurd (hid ▸ hcommon) (ruleId_not_common rule hrule)

variable {κ : Type} [Timeline τ] [Clock κ τ] {budget : Option τ} {clock : κ} {r : ValidationResult}

theorem appliedVersion_detect (hfound : findMarker script = .ok found) :
    detectVersion script fallback = .ok (appliedVersion found none fallback) := by
  rw [detectVersion, hfound]
  rfl

/-- A version rule is reported exactly when it belongs to the version of the script and fires for
its mask. -/
theorem validate_hasRule_iff (hnone : settings.ignoredRules = [])
    (hblank : Text.isAllSpace script = false)
    (h : (validate settings fallback none budget clock script).outcome = .ok r) {rule : VersionRule}
    (hrule : rule ∈ versionRules) :
    r.hasRule rule.id.toList = true ↔
      ∃ v, detectVersion script fallback = .ok v ∧ v ∈ rule.versions ∧
      rule.fires (mask script) = true := by
  rcases validateHeard_ok settings fallback none true budget clock h with ⟨hspace, -⟩ | ⟨found, -,
    hfound, rfl⟩
  · rw [hspace] at hblank
    cases hblank
  · rw [hasRule_filter hnone, diagnose_hasRule_iff hrule, appliedVersion_detect hfound]
    exact ⟨fun h => ⟨_, rfl, h⟩, fun ⟨v, hv, h⟩ => Except.ok.inj hv ▸ h⟩

theorem fires_of_validate_hasRule (hblank : Text.isAllSpace script = false)
    (h : (validate settings fallback none budget clock script).outcome = .ok r) {rule : VersionRule}
    (hrule : rule ∈ versionRules) (hreported : r.hasRule rule.id.toList = true) :
    rule.fires (mask script) = true := by
  rcases validateHeard_ok settings fallback none true budget clock
    h with ⟨hspace, -⟩ | ⟨found, -, -, rfl⟩
  · rw [hspace] at hblank
    cases hblank
  · exact ((diagnose_hasRule_iff hrule).mp (hasRule_of_filter _ hreported)).2

end Results

section Declarations

variable {β : Type} {r : Reader Char β}

/-- A pattern at the start of lines is found on as many lines as its reader succeeds on. -/
theorem Pattern.length_findAll_atLineStart (hr : (atLineStart r).LineWise) (t : Text) :
    ((atLineStart r).findAll t).length = (Text.lines t).countP fun l => (r l).isSome := by
  have hline {l : Text} (hl : Text.OneLine l) : ((atLineStart r).findAll l).length =
      if (r l).isSome then 1 else 0 := by
    rw [findAll]
    rcases segments_atLineStart hr.advances (l := l) fun c hc e => hl (e ▸ hc) with
      ⟨e, hsegments⟩ | ⟨taken, v, rest, -, -, e, hsegments⟩
    · rw [hsegments, matchesFrom_plain, e]
      rfl
    · rw [hsegments, matchesFrom, matchesFrom_plain, e]
      rfl
  induction t using Text.lines_induction with
  | last l hl => rw [hline hl, Text.lines_of_oneLine hl, List.countP_singleton]
  | more l t hl ih =>
    rw [hr.findAll_newline l (n := '\n') rfl t, List.length_append, List.length_map, ih, hline hl,
      Text.lines_append_newline hl, List.countP_cons, Nat.add_comm]

def declares (code : Text) : Bool := (declaration.readAt? code).isSome

theorem lineWise_declaration : (declaration : Pattern Char DeclarationCall).LineWise := by
  have hname : ∀ call ∈ DeclarationCall.all, call.name.toList ≠ [] ∧ '\n' ∉ call.name.toList := by
    decide
  refine Pattern.lineWise_atLineStart (Pattern.advances_atLineStart (eats_firstOf fun r hr => ?_))
    (haltsAt_firstOf fun r hr => ?_)
  · obtain ⟨call, hcall, rfl⟩ := List.mem_map.mp hr
    refine (eats_word (hname call hcall).1).discard.bind fun _ =>
      (trims_run _).discard.bind fun _ => ?_
    exact (eats_one _).discard.trims.bind fun _ => trims_pure _
  · obtain ⟨call, hcall, rfl⟩ := List.mem_map.mp hr
    refine (haltsAt_word (hname call hcall).2).discard.bind fun _ =>
      (haltsAt_run (by decide)).discard.bind fun _ => ?_
    exact (haltsAt_one (by decide)).discard.bind fun _ => haltsAt_pure _

theorem length_declarations (t : Text) :
    (declarations t).length = (Text.lines (mask t)).countP declares := by
  have hdeclares : declares = fun l =>
      ((declaration : Pattern Char DeclarationCall) none l).isSome :=
    funext fun l => Option.isSome_map
  rw [declarations_eq, List.length_map, hdeclares]
  exact Pattern.length_findAll_atLineStart lineWise_declaration (mask t)

end Declarations

section Acceptance

/-- A script without errors in the eyes of a version: its structure is sound, it is declared once,
from the middle version on no export declares a variable, and in the newest one every definition is
a method and the word `varip` does not stand alone. -/
structure Accepted (v : ScriptVersion) (t : Text) : Prop where
  balanced : structuralImbalance t = 0
  declared : (Text.lines (mask t)).countP declares = 1
  exports : v ≠ .v4 → ∀ code ∈ Text.lines (mask t), exportHead.readAt? code = none
  methods : v = .v6 → ∀ code ∈ Text.lines (mask t), ∀ d, functionDefinition.readAt? code = some d →
    d.method ≠ none
  varip : v = .v6 → ∀ code ∈ Text.lines (mask t), varipWord.occursIn code = false

theorem Text.mem_of_mem_line {t l : Text} (hl : l ∈ Text.lines t) {c : Char} (hc : c ∈ l) :
    c ∈ t := by
  induction t using Text.lines_induction with
  | last l' hone =>
    rw [Text.lines_of_oneLine hone, List.mem_singleton] at hl
    exact hl ▸ hc
  | more l' t hone ih =>
    rw [Text.lines_append_newline hone, List.mem_cons] at hl
    rcases hl with rfl | hl
    · exact List.mem_append_left _ hc
    · exact List.mem_append_right _ (List.mem_cons_of_mem _ (ih hl))

theorem declarationDiagnostics_eq_nil_iff (found : List Declaration) :
    declarationDiagnostics found = [] ↔ found.length = 1 := by
  match found with
  | [] => exact ⟨fun h => (List.cons_ne_nil _ _ h).elim, fun h => absurd h (by decide)⟩
  | [d] => exact ⟨fun _ => rfl, fun _ => rfl⟩
  | _ :: _ :: ds => exact ⟨fun h => (List.cons_ne_nil _ _ h).elim, fun h => absurd h (by simp)⟩

section LineRules

variable {masked : Text}

theorem fires_line_iff {rule : VersionRule} {subject? : Text → Text → Option Text}
    (hcheck : rule.check = .line subject?) (hblank : ∀ code, (subject? code masked).isSome = true →
      Text.isAllSpace code = false) :
    rule.fires masked = true ↔ ∃ code ∈ Text.lines masked,
      (subject? code masked).isSome = true := by
  rw [VersionRule.fires, hcheck]
  dsimp only
  rw [List.any_eq_true]
  refine exists_congr fun code => and_congr_right fun _ => ?_
  rw [Bool.and_eq_true, Bool.not_eq_true']
  exact ⟨fun h => h.2, fun h => ⟨hblank code h, h⟩⟩

theorem exportingDeclaration_isSome (code : Text) :
    (Rule.exportingDeclaration code masked).isSome = true ↔ exportHead.readAt? code ≠ none := by
  rw [Rule.exportingDeclaration, Option.isSome_map, Option.isSome_iff_ne_none]

theorem plainArrowDefinition_isSome (code : Text) :
    (Rule.plainArrowDefinition code masked).isSome = true ↔
    ∃ d, functionDefinition.readAt? code = some d ∧ d.method = none := by
  rw [Rule.plainArrowDefinition]
  cases functionDefinition.readAt? code with
  | none => simp
  | some d => cases d.method <;> simp [*]

theorem varip_isSome (code : Text) :
    (Rule.varip code masked).isSome = true ↔ varipWord.occursIn code = true := by
  rw [Rule.varip]
  cases varipWord.occursIn code <;> decide

theorem neverReassigned_isSome (code : Text) : (Rule.neverReassigned code masked).isSome = true ↔
    ∃ d, variableDeclaration.readAt? code = some d ∧
    (reassignment d.name).occursIn masked = false := by
  rw [Rule.neverReassigned]
  cases variableDeclaration.readAt? code with
  | none => simp
  | some d => cases h : (reassignment d.name).occursIn masked <;> simp [h]

theorem readAt?_not_blank {β : Type} {p : Pattern Char β} {c : Char} (h : Demands c (p none))
    (hc : Text.isSpace c = false) {code : Text} (hread : p.readAt? code ≠ none) :
    Text.isAllSpace code = false := by
  obtain ⟨v, hv⟩ := Option.ne_none_iff_exists'.mp hread
  obtain ⟨⟨v, rest⟩, hv, -⟩ := Option.map_eq_some_iff.mp hv
  exact Text.isAllSpace_of_mem ((List.map_id code).subst (h hv)) hc

theorem exports_fires_iff {rule : VersionRule}
    (hcheck : rule.check = .line Rule.exportingDeclaration) :
    rule.fires masked = true ↔ ∃ code ∈ Text.lines masked, exportHead.readAt? code ≠ none := by
  simp only [fires_line_iff hcheck fun code h =>
    readAt?_not_blank (demands_exportHead (c := 'x') (by decide)) (by decide)
    ((exportingDeclaration_isSome code).mp h), exportingDeclaration_isSome]

theorem methods_fires_iff {rule : VersionRule}
    (hcheck : rule.check = .line Rule.plainArrowDefinition) :
    rule.fires masked = true ↔ ∃ code ∈ Text.lines masked, ∃ d, functionDefinition.readAt? code =
      some d ∧ d.method = none := by
  have hblank (code : Text) (h : (Rule.plainArrowDefinition code masked).isSome = true) :
      Text.isAllSpace code = false := by
    obtain ⟨d, hd, -⟩ := (plainArrowDefinition_isSome code).mp h
    exact readAt?_not_blank demands_functionDefinition (by decide) (hd ▸ Option.some_ne_none d)
  simp only [fires_line_iff hcheck hblank, plainArrowDefinition_isSome]

theorem varip_fires_iff {rule : VersionRule} (hcheck : rule.check = .line Rule.varip) :
    rule.fires masked = true ↔ ∃ code ∈ Text.lines masked, varipWord.occursIn code = true := by
  have hblank (code : Text) (h : (Rule.varip code masked).isSome = true) :
      Text.isAllSpace code = false := by
    have hv := Pattern.demands_occursIn demands_varipWord ((varip_isSome code).mp h)
    exact Text.isAllSpace_of_mem ((List.map_id code).subst hv) (by decide)
  simp only [fires_line_iff hcheck hblank, varip_isSome]

theorem neverReassigned_fires_iff {rule : VersionRule}
    (hcheck : rule.check = .line Rule.neverReassigned) :
    rule.fires masked = true ↔ ∃ code ∈ Text.lines masked, ∃ d,
      variableDeclaration.readAt? code = some d ∧
      (reassignment d.name).occursIn masked = false := by
  have hblank (code : Text) (h : (Rule.neverReassigned code masked).isSome = true) :
      Text.isAllSpace code = false := by
    obtain ⟨d, hd, -⟩ := (neverReassigned_isSome code).mp h
    exact readAt?_not_blank demands_variableDeclaration (by decide) (hd ▸ Option.some_ne_none d)
  simp only [fires_line_iff hcheck hblank, neverReassigned_isSome]

theorem noImport_fires_iff {rule : VersionRule} (hcheck : rule.check = .script Rule.noImport) :
    rule.fires masked = true ↔ importStatement.occursIn masked = false := by
  rw [VersionRule.fires, hcheck]
  dsimp only
  rw [Rule.noImport]
  cases importStatement.occursIn masked <;> decide

end LineRules

theorem error_rules {v : ScriptVersion} {masked : Text} :
    (∃ rule ∈ versionRules, v ∈ rule.versions ∧ rule.fires masked = true ∧ rule.severity = .error) ↔
      (v ≠ .v4 ∧ ∃ code ∈ Text.lines masked, exportHead.readAt? code ≠ none) ∨
        (v = .v6 ∧ ∃ code ∈ Text.lines masked, ∃ d, functionDefinition.readAt? code = some d ∧
          d.method = none) ∨
          v = .v6 ∧ ∃ code ∈ Text.lines masked, varipWord.occursIn code = true := by
  have hversions : v ∈ [ScriptVersion.v5, .v6] ↔ v ≠ .v4 := by cases v <;> decide
  simp only [versionRules, List.exists_mem_cons_iff, List.mem_singleton, exists_eq_left,
    reduceCtorEq, and_false, or_false, false_or, and_true, hversions]
  rw [exports_fires_iff rfl, methods_fires_iff rfl, varip_fires_iff rfl]

theorem diagnose_errors_eq_nil_iff {τ : Type} (settings : ValidationSettings τ)
    (fallback : ScriptVersion) (declared : Option ScriptVersion) (found : Option FoundMarker)
    (script : Text) :
    (diagnose settings fallback declared found script).errors = [] ↔
      Accepted (appliedVersion found declared fallback) script := by
  generalize hv : appliedVersion found declared fallback = v
  have hrules : (ruleDiagnostics v (mask script)).filter (fun d => d.severity == .error) = [] ↔
      ¬ ∃ rule ∈ versionRules, v ∈ rule.versions ∧ rule.fires (mask script) = true ∧
      rule.severity = .error := by
    rw [← exists_ruleDiagnostics_iff fun severity _ => severity = .error, List.filter_eq_nil_iff]
    simp only [beq_iff_eq, not_exists, not_and]
  simp only [diagnose, hv, List.append_eq_nil_iff, structuralDiagnostics_eq_nil_iff,
    declarationDiagnostics_eq_nil_iff, length_declarations, hrules, error_rules, not_or, not_and,
    not_exists, Bool.not_eq_true, not_not]
  constructor
  · rintro ⟨⟨hbalanced, hdeclared⟩, hexports, hmethods, hvarip⟩
    exact ⟨hbalanced, hdeclared, hexports, hmethods, hvarip⟩
  · intro h
    exact ⟨⟨h.balanced, h.declared⟩, h.exports, h.methods, h.varip⟩

theorem Accepted.not_blank {v : ScriptVersion} {t : Text} (h : Accepted v t) :
    Text.isAllSpace t = false := by
  obtain ⟨code, hcode, hdeclares⟩ :=
    List.countP_pos_iff.mp (Nat.lt_of_lt_of_eq Nat.zero_lt_one h.declared.symm)
  obtain ⟨⟨call, rest⟩, hread⟩ :=
    Option.isSome_iff_exists.mp (Option.isSome_map.symm.trans hdeclares)
  have hparen : '(' ∈ code := (List.map_id code).subst (demands_declaration hread)
  obtain ⟨cell, hcell, hmasked⟩ := List.mem_map.mp (Text.mem_of_mem_line hcode hparen)
  have hchar : cell.char = '(' := by
    rcases cell.masked_cases with e | e | e
    · exact e.symm.trans hmasked
    · exact absurd (e.symm.trans hmasked) (by decide)
    · exact absurd (e.symm.trans hmasked) (by decide)
  have hmem : cell.char ∈ t := (cellsFrom_chars .start t).subst (List.mem_map_of_mem hcell)
  exact Text.isAllSpace_of_mem (hchar ▸ hmem) (by decide)

variable {τ κ : Type} [Timeline τ] [Clock κ τ] {settings : ValidationSettings τ}
    {fallback : ScriptVersion} {budget : Option τ}
  {clock : κ} {script : Text} {r : ValidationResult}

/-- The validation of a script with a readable marker returns a result, or runs out of time. -/
theorem validate_returns_or_late {v : ScriptVersion} (hv : detectVersion script fallback = .ok v) :
    (∃ r, (validate settings fallback none budget clock script).outcome = .ok r) ∨
      ∃ e, (validate settings fallback none budget clock script).outcome = .error (.timeout e) := by
  change (∃ r, (validateHeard true settings fallback none budget clock script).outcome = .ok r) ∨
    ∃ e, (validateHeard true settings fallback none budget clock script).outcome =
      .error (.timeout e)
  cases hblank : Text.isAllSpace script with
  | true =>
    rw [validateHeard_blank settings fallback none true budget clock hblank]
    exact .inl ⟨_, rfl⟩
  | false =>
    obtain ⟨found, hfound⟩ : ∃ found, findMarker script = .ok found := by
      rw [detectVersion] at hv
      cases hfound : findMarker script with
      | ok found => exact ⟨found, rfl⟩
      | error e =>
        rw [hfound] at hv
        cases hv
    rcases validateHeard_cases settings fallback none true budget clock hblank hfound with
      ⟨-, told, -, e⟩ | ⟨j, -, -, -, -, d, told, -, -, e⟩
    · exact .inl ⟨_, congrArg ValidationRun.outcome e⟩
    · exact .inr ⟨_, congrArg ValidationRun.outcome e⟩

/-- A validation that ignores no rule and does not promote warnings finds no error exactly in the
scripts that the version they state, or the given one, accepts. -/
theorem validate_valid_iff (hnone : settings.ignoredRules = [])
    (hwarnings : settings.warningsAsErrors = false)
    (h : (validate settings fallback none budget clock script).outcome = .ok r) :
    r.valid = true ↔ ∃ v, detectVersion script fallback = .ok v ∧ Accepted v script := by
  have hkept (r : ValidationResult) : (settings.filter r).errors = r.errors := by
    rw [ValidationSettings.filter, hwarnings, hnone]
    exact List.filter_eq_self.mpr fun _ _ => rfl
  rw [ValidationResult.valid, List.isEmpty_iff]
  rcases validateHeard_ok settings fallback none true budget clock h with ⟨hblank, rfl⟩ | ⟨found, -,
    hfound, rfl⟩
  · rw [hkept]
    constructor
    · intro e
      cases e
    · rintro ⟨v, -, haccepted⟩
      rw [haccepted.not_blank] at hblank
      cases hblank
  · rw [hkept, diagnose_errors_eq_nil_iff, appliedVersion_detect hfound]
    constructor
    · exact fun haccepted => ⟨_, rfl, haccepted⟩
    · rintro ⟨v, hv, haccepted⟩
      exact Except.ok.inj hv ▸ haccepted

end Acceptance

end PineTools
