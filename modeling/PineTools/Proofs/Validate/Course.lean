import PineTools.Proofs.Text.Lines
import PineTools.Proofs.Validate.Clock
import PineTools.Validate.Basic

/-! The course of a validation. Whatever the clock shows, a validation reads it at the same moments,
and in between computes the same findings; only a reading that is too late breaks it off. -/
namespace PineTools

theorem rulesFor_scope (v : ScriptVersion) (scope : RuleScope) :
    rulesFor v (some scope) = (rulesFor v none).filter (scope == ·.check.scope) := by
  rw [rulesFor, rulesFor, List.filter_filter]
  congr 1
  funext rule
  rw [Option.all_none, Option.all_some, Bool.and_true, Bool.and_comm]

theorem lineDiagnostics_rulesFor (v : ScriptVersion) (masked code : Text) (number : Nat) :
    lineDiagnostics (rulesFor v (some .line)) masked code number =
      lineDiagnostics (rulesFor v none) masked code number := by
  rw [rulesFor_scope, lineDiagnostics, lineDiagnostics, List.filterMap_filter]
  congr 2
  funext rule
  cases hrule : rule.check <;> rfl

/-- Line rules say nothing about the script as a whole. -/
theorem scriptDiagnostics_rulesFor (v : ScriptVersion) (masked : Text) :
    scriptDiagnostics (rulesFor v (some .script)) masked =
      scriptDiagnostics (rulesFor v none) masked := by
  rw [rulesFor_scope, scriptDiagnostics, scriptDiagnostics, List.filterMap_filter]
  congr 1
  funext rule
  cases hrule : rule.check <;> rfl

/-- How many lines of a script are looked at under the clock. -/
def timedLines (v : ScriptVersion) (script : Text) : Nat :=
  if hasLineRules v then (Text.lines script).length else 0

/-- The moments at which a validation reads the clock, each as the number of checks finished by
then. -/
def validationMoments (v : ScriptVersion) (script : Text) : List Nat :=
  [1, 2, 2, 3, 4, 5] ++ List.replicate (timedLines v script) 5 ++ [6, 7, 8]

theorem validationMoments_length (v : ScriptVersion) (script : Text) :
    (validationMoments v script).length = 9 + timedLines v script := by
  rw [validationMoments, List.length_append, List.length_append, List.length_replicate]
  exact Nat.add_right_comm 6 _ 3

theorem validationMoments_sorted (v : ScriptVersion) (script : Text) :
    (validationMoments v script).Pairwise (· ≤ ·) := by
  have hfirst : ∀ d ∈ [1, 2, 2, 3, 4, 5], d ≤ 5 := by decide
  have hlines : ∀ d ∈ List.replicate (timedLines v script) 5, d = 5 :=
    fun d hd => List.eq_of_mem_replicate hd
  have hlast : ∀ d ∈ [6, 7, 8], 5 ≤ d := by decide
  rw [validationMoments, List.pairwise_append, List.pairwise_append]
  refine ⟨⟨by decide, List.pairwise_replicate.mpr (.inr (Nat.le_refl 5)), ?_⟩, by decide, ?_⟩
  · intro a ha b hb
    rw [hlines b hb]
    exact hfirst a ha
  · intro a ha b hb
    refine Nat.le_trans ?_ (hlast b hb)
    rcases List.mem_append.mp ha with ha | ha
    · exact hfirst a ha
    · exact Nat.le_of_eq (hlines a ha)

theorem validationMoments_le (v : ScriptVersion) (script : Text) :
    ∀ d ∈ validationMoments v script, d ≤ totalChecks := by
  intro d hd
  rw [validationMoments, List.append_assoc, List.mem_append, List.mem_append] at hd
  rcases hd with hd | hd | hd
  · revert d
    decide
  · cases List.eq_of_mem_replicate hd
    decide
  · revert d
    decide

theorem validationMoments_before {v : ScriptVersion} {script : Text} {i d : Nat}
    (hd : (validationMoments v script)[i]? = some d) :
    ∀ earlier ∈ (validationMoments v script).take i, earlier ≤ d := by
  obtain ⟨hi, rfl⟩ := List.getElem?_eq_some_iff.mp hd
  intro earlier hearlier
  obtain ⟨k, hk, rfl⟩ := List.mem_iff_getElem.mp hearlier
  rw [List.length_take] at hk
  rw [List.getElem_take]
  exact List.pairwise_iff_getElem.mp (validationMoments_sorted v script) k i _ hi (by omega)

section Courses

variable {τ κ α β : Type}

namespace Course

theorem bind_apply (x : Course τ κ α) (f : α → Course τ κ β) (t : Tracker τ κ) : (x >>= f) t =
    match x t with
    | (.ok a, t') => f a t'
    | (.error e, t') => (.error e, t') := by
  change (match x t with | (r, t') => ExceptT.bindCont f r t') = _
  cases h : x t with
  | mk r t' => cases r <;> rfl

end Course

variable [Timeline τ] [Clock κ τ]

namespace Tracker

/-- Reads the clock at the given moments. -/
def pass (t : Tracker τ κ) : List Nat → Except (Timeout τ) Unit × Tracker τ κ
  | [] => (.ok (), t)
  | done :: later =>
    match { t with done := done }.check with
    | (.ok (), t') => t'.pass later
    | (.error e, t') => (.error e, t')

theorem pass_append (t : Tracker τ κ) (a b : List Nat) : t.pass (a ++ b) =
    match t.pass a with
    | (.ok (), t') => t'.pass b
    | (.error e, t') => (.error e, t') := by
  induction a generalizing t with
  | nil => rfl
  | cons d a ih =>
    rw [List.cons_append, pass, pass]
    cases h : ({ t with done := d } : Tracker τ κ).check with
    | mk r t' =>
      cases r with
      | ok u => exact ih t'
      | error e => rfl

/-- A later state of the same validation, after some readings. Some of what was due has been told to
the listener. -/
structure Later (t : Tracker τ κ) (due : List Nat) (readings : Nat) (t' : Tracker τ κ) : Prop where
  limit : t'.limit = t.limit
  started : t'.started = t.started
  listening : t'.listening = t.listening
  clock : t'.clock = Clock.after t.clock readings
  reports : ∃ told : List Nat, told.Sublist due ∧ t'.reports = t.reports ++
    told.map (·, totalChecks)

def late (t : Tracker τ κ) (i : Nat) : Bool :=
  Timeline.exceeds (Timeline.between (Clock.reading t.clock i) t.started) t.limit

theorem check_late {t : Tracker τ κ} (h : t.late 0 = true) :
    t.check = (.error ⟨Timeline.between (Clock.reading t.clock 0) t.started, t.limit, t.done⟩,
      { t with clock := Clock.after t.clock 1 }) :=
  if_pos h

theorem check_timely {t : Tracker τ κ} (h : t.late 0 = false) :
    ∃ t', t.check = (.ok (), t') ∧ t.Later [t.done] 1 t' ∧ t'.done = t.done := by
  have hchecked : t.check =
      if t.listening && Timeline.reaches (Timeline.between (Clock.reading t.clock 0) t.lastReport)
        t.interval then
        (.ok (), Tracker.report
          { t with clock := Clock.after t.clock 1, lastReport := Clock.reading t.clock 0 } t.done)
      else (.ok (), { t with clock := Clock.after t.clock 1 }) :=
    if_neg (Bool.eq_false_iff.mp h)
  rw [hchecked]
  split
  · next hdue =>
    have hlistening : t.listening = true := (Bool.and_eq_true_iff.mp hdue).1
    refine ⟨_, rfl, ?_⟩
    rw [report, if_pos hlistening]
    exact ⟨⟨rfl, rfl, rfl, rfl, [t.done], .refl _, rfl⟩, rfl⟩
  · exact ⟨_, rfl, ⟨rfl, rfl, rfl, rfl, [], List.nil_sublist _, (List.append_nil _).symm⟩, rfl⟩

theorem check_done (t : Tracker τ κ) : t.check.2.done = t.done := by
  cases h : t.late 0 with
  | true => rw [check_late h]
  | false =>
    obtain ⟨t', hcheck, -, hdone⟩ := check_timely h
    rw [hcheck, hdone]

omit [Timeline τ] in
theorem Later.trans {t t' t'' : Tracker τ κ} {due due' : List Nat} {m n : Nat}
    (h : t.Later due m t') (h' : t'.Later due' n t'') :
    t.Later (due ++ due') (m + n) t'' := by
  obtain ⟨told, htold, hreports⟩ := h.reports
  obtain ⟨told', htold', hreports'⟩ := h'.reports
  refine ⟨h'.limit.trans h.limit, h'.started.trans h.started, h'.listening.trans h.listening, ?_,
    told ++ told', htold.append htold', ?_⟩
  · rw [h'.clock, h.clock, Clock.after_add]
  · rw [hreports', hreports, List.map_append, List.append_assoc]

theorem Later.late {t t' : Tracker τ κ} {due : List Nat} {n : Nat} (h : t.Later due n t')
    (i : Nat) : t'.late i = t.late (n + i) := by
  rw [Tracker.late, Tracker.late, h.limit, h.started, h.clock, Clock.reading_after]

/-- The first reading that is too late ends the pass. Up to there some of what was due has been
reported. -/
theorem pass_late {t : Tracker τ κ} {moments : List Nat} {i d : Nat} (hd : moments[i]? = some d)
    (hlate : t.late i = true) (htimely : ∀ j < i, t.late j = false) :
    ∃ t', t.pass moments =
      (.error ⟨Timeline.between (Clock.reading t.clock i) t.started, t.limit, d⟩, t') ∧
      t.Later (moments.take i) (i + 1) t' := by
  induction moments generalizing t i with
  | nil => cases hd
  | cons m moments ih =>
    cases i with
    | zero =>
      cases hd
      refine ⟨{ t with clock := Clock.after t.clock 1, done := d }, ?_,
        ⟨rfl, rfl, rfl, rfl, [], .refl _, (List.append_nil _).symm⟩⟩
      rw [pass, check_late (t := { t with done := d }) hlate]
    | succ i =>
      obtain ⟨t₁, hcheck, hlater, -⟩ :=
        check_timely (t := { t with done := m }) (htimely 0 (Nat.succ_pos i))
      have hmoved (j : Nat) : t₁.late j = t.late (j + 1) :=
        (hlater.late j).trans (congrArg t.late (Nat.add_comm 1 j))
      obtain ⟨t', hpass, hlater'⟩ := ih (t := t₁) hd (by rw [hmoved, hlate])
        fun j hj => by rw [hmoved, htimely _ (Nat.succ_lt_succ hj)]
      refine ⟨t', ?_, ?_⟩
      · rw [pass, hcheck]
        simp only []
        rw [hpass, hlater.clock, hlater.started, hlater.limit]
        rfl
      · have h := hlater.trans hlater'
        rw [Nat.add_comm] at h
        exact ⟨h.limit, h.started, h.listening, h.clock, h.reports⟩

theorem pass_timely {t : Tracker τ κ} {moments : List Nat}
    (htimely : ∀ j < moments.length, t.late j = false) :
    ∃ t', t.pass moments = (.ok (), t') ∧ t.Later moments moments.length t' := by
  induction moments generalizing t with
  | nil => exact ⟨t, rfl, rfl, rfl, rfl, rfl, [], .refl _, (List.append_nil _).symm⟩
  | cons m moments ih =>
    obtain ⟨t₁, hcheck, hlater, -⟩ :=
      check_timely (t := { t with done := m }) (htimely 0 (Nat.succ_pos _))
    obtain ⟨t', hpass, hlater'⟩ := ih (t := t₁) fun j hj => by
      rw [hlater.late, Nat.add_comm]
      exact htimely _ (Nat.succ_lt_succ hj)
    have h := hlater.trans hlater'
    rw [Nat.add_comm] at h
    refine ⟨t', ?_, h.limit, h.started, h.listening, h.clock, h.reports⟩
    rw [pass, hcheck]
    exact hpass

end Tracker

namespace Course

variable {before middle later : Nat} {moments moments' : List Nat}

/-- Begun after some finished checks, the course reads the clock at the given moments and gives the
value, or the timeout. -/
def Follows (before : Nat) (moments : List Nat) (later : Nat) (x : Course τ κ α) (a : α) : Prop :=
  ∀ t : Tracker τ κ, t.done = before →
    (∀ t', t.pass moments = (.ok (), t') → x t = (.ok a, t') ∧ t'.done = later) ∧
      ∀ e t', t.pass moments = (.error e, t') → x t = (.error (.timeout e), t')

theorem Follows.pure (a : α) : Follows before [] before (pure a : Course τ κ α) a := by
  intro t ht
  refine ⟨fun t' h => ?_, fun e t' h => nomatch h⟩
  cases h
  exact ⟨rfl, ht⟩

theorem Follows.bind {x : Course τ κ α} {f : α → Course τ κ β} {a : α} {b : β}
    (hx : Follows before moments middle x a) (hf : Follows middle moments' later (f a) b) :
    Follows before (moments ++ moments') later (x >>= f) b := by
  intro t ht
  rw [Tracker.pass_append, bind_apply]
  obtain ⟨hok, herror⟩ := hx t ht
  cases h : t.pass moments with
  | mk r t' =>
    cases r with
    | ok u =>
      obtain ⟨hvalue, hdone⟩ := hok t' h
      rw [hvalue]
      exact hf t' hdone
    | error e =>
      rw [herror e t' h]
      refine ⟨fun _ h' => (nomatch h'), fun e' t'' h' => ?_⟩
      cases h'
      rfl

/-- One reading, with a number of finished checks of its own. -/
theorem follows_timed {act : Tracker τ κ → Except (Timeout τ) Unit × Tracker τ κ} {d : Nat}
    (hact : ∀ t : Tracker τ κ, t.done = before → act t = { t with done := d }.check) :
    Follows before [d] d (timed act : Course τ κ Unit) () := by
  intro t ht
  have hdone := ({ t with done := d } : Tracker τ κ).check_done
  rw [timed, hact t ht, Tracker.pass]
  cases h : ({ t with done := d } : Tracker τ κ).check with
  | mk r t' =>
    rw [h] at hdone
    cases r with
    | ok u =>
      refine ⟨fun t'' h' => ?_, fun e' t'' h' => nomatch h'⟩
      cases h'
      exact ⟨rfl, hdone⟩
    | error e =>
      refine ⟨fun _ h' => (nomatch h'), fun e' t'' h' => ?_⟩
      cases h'
      rfl

theorem follows_check (d : Nat) : Follows d [d] d (check : Course τ κ Unit) () :=
  follows_timed fun t ht => by rw [← ht]

theorem follows_stepDone (d : Nat) : Follows d [d + 1] (d + 1) (stepDone : Course τ κ Unit) () :=
  follows_timed fun t ht => by rw [Tracker.stepDone, ht]

theorem follows_marker {script : Text} {found : Option FoundMarker}
    (h : findMarker script = .ok found) (d : Nat) :
    Follows d [] d (marker script : Course τ κ (Option FoundMarker)) found := by
  intro t ht
  refine ⟨fun t' h' => ?_, fun e t' h' => nomatch h'⟩
  cases h'
  exact ⟨by rw [marker, h]; rfl, ht⟩

theorem follows_lineRules (rules : List VersionRule) (masked : Text) (d : Nat)
    (ls : List (Text × Nat)) :
    Follows d (List.replicate ls.length d) d (lineRules rules masked ls :
      Course τ κ (List Diagnostic))
        (ls.flatMap fun p => lineDiagnostics rules masked p.1 (p.2 + 1)) := by
  induction ls with
  | nil => exact Follows.pure []
  | cons p ls ih =>
    have hrest :=
      ih.bind (f := fun later => pure (lineDiagnostics rules masked p.1 (p.2 + 1) ++ later))
        (Follows.pure _)
    rw [List.append_nil] at hrest
    exact (follows_check d).bind hrest

theorem follows_versionRules (v : ScriptVersion) (masked : Text) (d : Nat) :
    Follows d (List.replicate (timedLines v masked) d) d (versionRules v masked :
      Course τ κ (List Diagnostic)) (ruleDiagnostics v masked) := by
  have hrules : ruleDiagnostics v masked = ((Text.lines masked).zipIdx.flatMap fun p =>
      lineDiagnostics (rulesFor v (some .line)) masked p.1 (p.2 + 1)) ++
        scriptDiagnostics (rulesFor v (some .script)) masked := by
    simp only [ruleDiagnostics, lineDiagnostics_rulesFor, scriptDiagnostics_rulesFor]
  rw [hrules, versionRules, timedLines, ← List.append_nil (List.replicate _ _)]
  split
  · have hlines := follows_lineRules (τ := τ) (κ := κ) (rulesFor v (some .line)) masked d
      (Text.lines masked).zipIdx
    rw [List.length_zipIdx] at hlines
    exact hlines.bind (Follows.pure _)
  · have hnone : rulesFor v (some .line) = [] := by simp_all [hasLineRules]
    have hempty : ((Text.lines masked).zipIdx.flatMap fun p =>
        lineDiagnostics (rulesFor v (some .line)) masked p.1 (p.2 + 1)) = [] :=
      List.flatMap_eq_nil_iff.mpr fun p _ => by
        rw [hnone, lineDiagnostics, List.filterMap_nil, ite_self]
    rw [hempty]
    exact (Follows.pure []).bind (Follows.pure _)

theorem follows_findings (settings : ValidationSettings τ) (fallback : ScriptVersion)
    (declared : Option ScriptVersion) {script : Text} {found : Option FoundMarker}
    (hblank : Text.isAllSpace script = false) (hfound : findMarker script = .ok found) :
    Follows 0 (validationMoments (appliedVersion found declared fallback) (mask script)) totalChecks
      (findings settings fallback declared script : Course τ κ ValidationResult)
      (diagnose settings fallback declared found script) := by
  rw [findings, hblank]
  have h (v : ScriptVersion) := follows_versionRules (τ := τ) (κ := κ) v (mask script) 5
  exact (follows_stepDone 0).bind
    ((follows_marker hfound 1).bind ((follows_stepDone 1).bind ((follows_check 2).bind
    ((follows_stepDone 2).bind ((follows_stepDone 3).bind ((follows_stepDone 4).bind ((h _).bind
    ((follows_stepDone 5).bind
      ((follows_stepDone 6).bind ((follows_stepDone 7).bind (Follows.pure _)))))))))))

end Course

theorem Course.checks_apply (settings : ValidationSettings τ) (fallback : ScriptVersion)
    (declared : Option ScriptVersion) (script : Text) (t : Tracker τ κ) :
    checks settings fallback declared script t =
    match findings settings fallback declared script t with
    | (.ok r, t') => (.ok (settings.filter r), t'.finish)
    | (.error e, t') => (.error e, t') := by
  rw [checks, bind_apply]
  cases findings settings fallback declared script t with
  | mk r t' => cases r <;> rfl

omit [Timeline τ] [Clock κ τ] in
theorem Tracker.finish_reports (t : Tracker τ κ) :
    t.finish.reports = t.reports ++ if t.listening then [(totalChecks, totalChecks)] else [] := by
  rw [finish, report]
  split
  · rfl
  · exact (List.append_nil _).symm

omit [Timeline τ] [Clock κ τ] in
theorem Tracker.finish_clock (t : Tracker τ κ) : t.finish.clock = t.clock := by
  rw [finish, report]
  split <;> rfl

/-- Nothing is found if the marker cannot be read. -/
theorem Course.findings_marker_error (settings : ValidationSettings τ) (fallback : ScriptVersion)
    (declared : Option ScriptVersion) {script : Text} {e : Decimal.NumeralError}
    (hblank : Text.isAllSpace script = false) (he : findMarker script = .error e)
    (t : Tracker τ κ) : ∃ failure, (findings settings fallback declared script t).1 =
    .error failure := by
  have hmarker (t : Tracker τ κ) : marker script t = (.error (.marker e), t) := by
    rw [marker, he]; rfl
  rw [findings, hblank, if_neg Bool.false_ne_true, bind_apply]
  cases h : (stepDone : Course τ κ Unit) t with
  | mk r t' =>
    cases r with
    | error failure => exact ⟨failure, rfl⟩
    | ok u =>
      simp only [bind_apply, hmarker]
      exact ⟨_, rfl⟩

def Clock.late (clock : κ) (limit : τ) (j : Nat) : Bool :=
  Timeline.exceeds (Timeline.between (reading clock j) (reading clock 0)) limit

section Runs

variable (settings : ValidationSettings τ) (fallback : ScriptVersion)
    (declared : Option ScriptVersion) (listening : Bool)
  (budget : Option τ) (clock : κ) {script : Text} {found : Option FoundMarker}

theorem validateHeard_blank (hblank : Text.isAllSpace script = true) :
    validateHeard listening settings fallback declared budget clock script =
      ⟨.ok (settings.filter blankResult), if listening then [(totalChecks, totalChecks)]
        else [], Clock.after clock 1⟩ := by
  rw [validateHeard, Course.checks_apply, Course.findings, hblank]
  cases listening <;> rfl

variable (hblank : Text.isAllSpace script = false) (hfound : findMarker script = .ok found)
include hblank hfound

/-- A validation that is not broken off finds what there is to find. -/
theorem validateHeard_timely
    (htimely : ∀ j, 1 ≤ j → j ≤ 9 + timedLines (appliedVersion found declared fallback)
      (mask script) →
      Clock.late clock (budget.getD settings.maxTime) j = false) :
    ∃ told : List Nat,
      told.Sublist (validationMoments (appliedVersion found declared fallback) (mask script)) ∧
      validateHeard listening settings fallback declared budget clock script =
        ⟨.ok (settings.filter (diagnose settings fallback declared found script)),
          told.map (·, totalChecks) ++ if listening then [(totalChecks, totalChecks)] else [],
          Clock.after clock
            (9 + timedLines (appliedVersion found declared fallback) (mask script) + 1)⟩ := by
  let t : Tracker τ κ :=
    .start (budget.getD settings.maxTime) settings.progressInterval listening clock
  let moments := validationMoments (appliedVersion found declared fallback) (mask script)
  have hlength : moments.length = 9 + timedLines (appliedVersion found declared fallback)
      (mask script) :=
    validationMoments_length ..
  obtain ⟨t', hpass, hlater⟩ := @Tracker.pass_timely _ _ _ _ t moments fun j hj =>
    htimely (j + 1) (Nat.succ_pos j) (hlength ▸ hj)
  obtain ⟨hfindings, -⟩ :=
    (Course.follows_findings settings fallback declared hblank hfound t rfl).1 t' hpass
  obtain ⟨told, htold, hreports⟩ := hlater.reports
  refine ⟨told, htold, ?_⟩
  rw [validateHeard, Course.checks_apply, hfindings]
  dsimp only
  rw [t'.finish_clock, hlater.clock, hlength, t'.finish_reports, hreports, hlater.listening]
  rfl

/-- A validation is broken off by the first reading that is too late. It tells how far it has come.
-/
theorem validateHeard_late {j : Nat} (hlow : 1 ≤ j)
    (hhigh : j ≤ 9 + timedLines (appliedVersion found declared fallback) (mask script))
    (hlate : Clock.late clock (budget.getD settings.maxTime) j = true)
    (htimely : ∀ i, 1 ≤ i → i < j → Clock.late clock (budget.getD settings.maxTime) i = false) :
    ∃ d, ∃ told : List Nat,
      (validationMoments (appliedVersion found declared fallback) (mask script))[j - 1]? = some d ∧
      told.Sublist
        ((validationMoments (appliedVersion found declared fallback) (mask script)).take (j - 1)) ∧
      validateHeard listening settings fallback declared budget clock script =
        ⟨.error (.timeout ⟨Timeline.between (Clock.reading clock j) (Clock.reading clock 0),
          budget.getD settings.maxTime, d⟩),
          told.map (·, totalChecks), Clock.after clock (j + 1)⟩ := by
  let t : Tracker τ κ :=
    .start (budget.getD settings.maxTime) settings.progressInterval listening clock
  let moments := validationMoments (appliedVersion found declared fallback) (mask script)
  have hlength : moments.length = 9 + timedLines (appliedVersion found declared fallback)
      (mask script) :=
    validationMoments_length ..
  obtain ⟨i, rfl⟩ := Nat.exists_eq_add_one.mpr hlow
  have hd : moments[i]? = some moments[i] := List.getElem?_eq_getElem (hlength ▸ hhigh)
  obtain ⟨t', hpass, hlater⟩ := t.pass_late hd hlate fun k hk => htimely (k + 1) (Nat.succ_pos k)
    (Nat.succ_lt_succ hk)
  have hfindings :=
    (Course.follows_findings settings fallback declared hblank hfound t rfl).2 _ t' hpass
  obtain ⟨told, htold, hreports⟩ := hlater.reports
  refine ⟨moments[i], told, hd, htold, ?_⟩
  rw [validateHeard, Course.checks_apply, hfindings]
  dsimp only
  rw [hreports, hlater.clock]
  rfl

omit hblank hfound in
theorem exists_first_late (limit : τ) (n : Nat) :
    (∀ j, 1 ≤ j → j ≤ n → Clock.late clock limit j = false) ∨
    ∃ j, 1 ≤ j ∧ j ≤ n ∧ Clock.late clock limit j = true ∧ ∀ i, 1 ≤ i → i < j →
    Clock.late clock limit i = false := by
  induction n with
  | zero => exact .inl fun j hlow hhigh => absurd hlow (Nat.not_le_of_gt (Nat.lt_succ_of_le hhigh))
  | succ n ih =>
    rcases ih with htimely | ⟨j, hlow, hhigh, hlate, hfirst⟩
    · cases hlast : Clock.late clock limit (n + 1) with
      | true => exact .inr ⟨n + 1, Nat.succ_pos n, Nat.le_refl _, hlast, fun i hi hin =>
          htimely i hi (Nat.le_of_lt_succ hin)⟩
      | false =>
        refine .inl fun j hlow hhigh => ?_
        rcases Nat.lt_or_eq_of_le hhigh with hj | rfl
        · exact htimely j hlow (Nat.le_of_lt_succ hj)
        · exact hlast
    · exact .inr ⟨j, hlow, Nat.le_succ_of_le hhigh, hlate, hfirst⟩

/-- A validation of a script that is not blank either returns after the last reading, or is broken
off by the first one that is too late. -/
theorem validateHeard_cases :
    ((∀ j, 1 ≤ j → j ≤ 9 + timedLines (appliedVersion found declared fallback) (mask script) →
        Clock.late clock (budget.getD settings.maxTime) j = false) ∧
      ∃ told : List Nat,
        told.Sublist (validationMoments (appliedVersion found declared fallback) (mask script)) ∧
        validateHeard listening settings fallback declared budget clock script =
          ⟨.ok (settings.filter (diagnose settings fallback declared found script)),
            told.map (·, totalChecks) ++ if listening then [(totalChecks, totalChecks)] else [],
            Clock.after clock
              (9 + timedLines (appliedVersion found declared fallback) (mask script) + 1)⟩) ∨
    ∃ j, 1 ≤ j ∧ j ≤ 9 + timedLines (appliedVersion found declared fallback) (mask script) ∧
      Clock.late clock (budget.getD settings.maxTime) j = true ∧
      (∀ i, 1 ≤ i → i < j → Clock.late clock (budget.getD settings.maxTime) i = false) ∧
      ∃ d, ∃ told : List Nat,
        (validationMoments (appliedVersion found declared fallback) (mask script))[j - 1]? = some
        d ∧
        told.Sublist
          ((validationMoments (appliedVersion found declared fallback) (mask script)).take
          (j - 1)) ∧
        validateHeard listening settings fallback declared budget clock script =
          ⟨.error (.timeout ⟨Timeline.between (Clock.reading clock j) (Clock.reading clock 0),
            budget.getD settings.maxTime, d⟩),
            told.map (·, totalChecks), Clock.after clock (j + 1)⟩ := by
  rcases exists_first_late clock (budget.getD settings.maxTime)
    (9 + timedLines (appliedVersion found declared fallback) (mask script)) with htimely | ⟨j, hlow,
      hhigh, hlate, hfirst⟩
  · exact .inl
      ⟨htimely, validateHeard_timely settings fallback declared listening budget clock hblank
      hfound htimely⟩
  · exact .inr ⟨j, hlow, hhigh, hlate, hfirst,
      validateHeard_late settings fallback declared listening budget clock hblank hfound hlow hhigh
        hlate hfirst⟩

omit hblank hfound in
/-- A result tells everything that is found, whatever the clock and the budget are. -/
theorem validateHeard_ok {r : ValidationResult}
    (h : (validateHeard listening settings fallback declared budget clock script).outcome = .ok r) :
    Text.isAllSpace script = true ∧ r = settings.filter blankResult ∨
      ∃ found, Text.isAllSpace script = false ∧ findMarker script = .ok found ∧
        r = settings.filter (diagnose settings fallback declared found script) := by
  cases hblank : Text.isAllSpace script with
  | true =>
    rw [validateHeard_blank settings fallback declared listening budget clock hblank] at h
    cases h
    exact .inl ⟨rfl, rfl⟩
  | false =>
    refine .inr ?_
    cases hfound : findMarker script with
    | error e =>
      obtain ⟨failure, hfailure⟩ :=
        Course.findings_marker_error settings fallback declared hblank hfound
        (.start (budget.getD settings.maxTime) settings.progressInterval listening clock)
      rw [validateHeard, Course.checks_apply] at h
      cases hrun : Course.findings settings fallback declared script
          (.start (budget.getD settings.maxTime) settings.progressInterval listening clock) with
      | mk outcome t =>
        rw [hrun] at h hfailure
        cases hfailure
        cases h
    | ok found =>
      refine ⟨found, rfl, rfl, ?_⟩
      rcases validateHeard_cases settings fallback declared listening budget clock
        hblank hfound with
        ⟨-, told, -, hrun⟩ | ⟨j, -, -, -, -, d, told, -, -, hrun⟩
      · rw [hrun] at h
        cases h
        rfl
      · rw [hrun] at h
        cases h

end Runs
end Courses
end PineTools
