import Mathlib.Data.Rat.Defs
import Mathlib.Tactic.Linarith
import Mathlib.Tactic.Ring
import PineTools.Proofs.Validate.Course
import PineTools.Proofs.Validate.Noninterference

namespace PineTools

theorem timedLines_mask (v : ScriptVersion) (script : Text) :
    timedLines v (mask script) = timedLines v script := by
  have h := congrArg List.length (lines_mask script)
  rw [List.length_map, List.length_map] at h
  rw [timedLines, timedLines, h]

/-- The reports go forward and are about the eight checks. -/
structure SteadyReports (reports : List (Nat × Nat)) : Prop where
  forward : reports.Pairwise (·.1 ≤ ·.1)
  bounded : ∀ p ∈ reports, p.1 ≤ 8 ∧ p.2 = 8

theorem steadyReports_told {v : ScriptVersion} {script : Text} {told : List Nat}
    (h : told.Sublist (validationMoments v script)) :
    SteadyReports (told.map (·, totalChecks)) := by
  refine ⟨List.pairwise_map.mpr ((validationMoments_sorted v script).sublist h), fun p hp => ?_⟩
  obtain ⟨d, hd, rfl⟩ := List.mem_map.mp hp
  exact ⟨validationMoments_le v script d (h.mem hd), rfl⟩

theorem SteadyReports.finished {reports : List (Nat × Nat)} (h : SteadyReports reports)
    (listening : Bool) :
    SteadyReports (reports ++ if listening then [(totalChecks, totalChecks)] else []) := by
  cases listening with
  | false => rwa [if_neg Bool.false_ne_true, List.append_nil]
  | true =>
    rw [if_pos rfl]
    refine ⟨List.pairwise_append.mpr ⟨h.forward, List.pairwise_singleton _ _, fun p hp q hq => ?_⟩,
      fun p hp => ?_⟩
    · cases List.mem_singleton.mp hq
      exact (h.bounded p hp).1
    · rcases List.mem_append.mp hp with hp | hp
      · exact h.bounded p hp
      · cases List.mem_singleton.mp hp
        exact ⟨Nat.le_refl 8, rfl⟩

section ExactTimes

variable {κ : Type} [Clock κ Rat]

theorem late_iff (clock : κ) (limit : Rat) (j : Nat) :
    Clock.late clock limit j = true ↔ limit < Clock.reading clock j - Clock.reading clock 0 :=
  decide_eq_true_iff

/-- No time passes on a clock that stands still, so it exceeds no budget that is not negative. -/
theorem not_late_of_still {clock : κ} (hstill : ∀ n, Clock.reading clock n = Clock.reading clock 0)
    {limit : Rat} (h : 0 ≤ limit) (j : Nat) : Clock.late clock limit j = false := by
  rw [← Bool.not_eq_true, late_iff, hstill j, sub_self, not_lt]
  exact h

/-- What a validation with a budget promises, whatever the clock shows. Its clock is read so many
times after the start. -/
structure Observed (script : Text) (limit : Rat) (readings : Nat) (clock : κ) (listening : Bool)
    (run : ValidationRun Rat κ) :
    Prop where
  /-- The run ends with a result or with a timeout. -/
  ends : (∃ r, run.outcome = .ok r) ∨ ∃ e, run.outcome = .error (.timeout e)
  /-- It times out exactly if some reading is too late. -/
  timeout_iff : (∃ e, run.outcome = .error (.timeout e)) ↔ Text.isAllSpace script = false ∧
    ∃ j, 1 ≤ j ∧ j ≤ readings ∧ limit < Clock.reading clock j - Clock.reading clock 0
  steady : SteadyReports run.reports
  /-- On return the listener has heard that all is finished. -/
  last : listening = true → ∀ r, run.outcome = .ok r → run.reports.getLast? = some (8, 8)
  /-- A timeout counts no fewer checks than were reported before. It comes with the first reading
  that is too late. That is the last one, and all that was reported was reported at earlier ones. -/
  timeout : ∀ e, run.outcome = .error (.timeout e) → (∀ p ∈ run.reports, p.1 ≤ e.checksDone) ∧
    ∃ j, 1 ≤ j ∧ limit < Clock.reading clock j - Clock.reading clock 0 ∧
      (∀ i, 1 ≤ i → i < j → Clock.reading clock i - Clock.reading clock 0 ≤ limit) ∧
      run.clock = Clock.after clock (j + 1) ∧ run.reports.length < j

variable (settings : ValidationSettings Rat) (fallback : ScriptVersion)
    (declared : Option ScriptVersion) (listening : Bool)
  (budget : Option Rat) (clock : κ) {script : Text}

theorem observed_blank (readings : Nat) (hblank : Text.isAllSpace script = true) :
    Observed script (budget.getD settings.maxTime) readings clock listening
      (validateHeard listening settings fallback declared budget clock script) := by
  rw [validateHeard_blank settings fallback declared listening budget clock hblank]
  refine ⟨.inl ⟨_, rfl⟩, ⟨fun ⟨e, he⟩ => (nomatch he), fun h => ?_⟩, ?_, fun h _ _ => ?_,
    fun e he => nomatch he⟩
  · rw [hblank] at h
    exact absurd h.1 Bool.true_eq_false.mp
  · exact (@steadyReports_told .v5 [] [] (List.nil_sublist _)).finished listening
  · rw [h]
    rfl

variable {found : Option FoundMarker} (hblank : Text.isAllSpace script = false)
    (hfound : findMarker script = .ok found)
include hblank hfound

theorem observed_of_marker :
    Observed script (budget.getD settings.maxTime)
    (9 + timedLines (appliedVersion found declared fallback) script) clock listening
      (validateHeard listening settings fallback declared budget clock script) := by
  have hcases := validateHeard_cases settings fallback declared listening budget clock hblank hfound
  rw [timedLines_mask] at hcases
  rcases hcases with ⟨htimely, told, htold, hrun⟩ | ⟨j, hlow, hhigh, hlate, hfirst, d, told, hd,
    htold, hrun⟩
  · rw [hrun]
    refine ⟨.inl ⟨_, rfl⟩, ⟨fun ⟨e, he⟩ => (nomatch he), fun ⟨_, j, hlow, hhigh, hlate⟩ => ?_⟩,
      (steadyReports_told htold).finished listening, fun h _ _ => ?_, fun e he => nomatch he⟩
    · rw [← late_iff, htimely j hlow hhigh] at hlate
      exact absurd hlate Bool.false_ne_true
    · rw [h, if_pos rfl, List.getLast?_append]
      rfl
  · have hlate := (late_iff _ _ _).mp hlate
    rw [hrun]
    refine ⟨.inr ⟨_, rfl⟩, ⟨fun _ => ⟨hblank, j, hlow, hhigh, hlate⟩, fun _ => ⟨_, rfl⟩⟩,
      steadyReports_told (htold.trans (List.take_sublist _ _)), fun _ r hr => (nomatch hr),
      fun e he => ?_⟩
    cases he
    refine ⟨fun p hp => ?_, j, hlow, hlate, fun i hi hij => ?_, rfl, ?_⟩
    · obtain ⟨d', hd', rfl⟩ := List.mem_map.mp hp
      exact validationMoments_before hd d' (htold.mem hd')
    · rw [← not_lt, ← late_iff, hfirst i hi hij]
      exact Bool.false_ne_true
    · have hlength := htold.length_le
      rw [List.length_take] at hlength
      rw [List.length_map]
      omega

/-- A result is the same if no time passes and nobody listens, whatever the budget is then. -/
theorem validateHeard_still {κ' : Type} [Clock κ' Rat] {still : κ'}
    (hstill : ∀ n, Clock.reading still n = Clock.reading still 0) {budget' : Option Rat}
    (h : 0 ≤ budget'.getD settings.maxTime) :
    (validateHeard false settings fallback declared budget' still script).outcome =
      .ok (settings.filter (diagnose settings fallback declared found script)) := by
  rcases validateHeard_cases settings fallback declared false budget' still hblank hfound with
    ⟨-, told, -, hrun⟩ | ⟨j, -, -, hlate, -⟩
  · rw [hrun]
  · rw [not_late_of_still hstill h] at hlate
    exact absurd hlate Bool.false_ne_true

end ExactTimes

/-- A clock with exact readings that moves by a fixed step with every reading. -/
structure ExactClock where
  now : Rat
  step : Rat

instance : Clock ExactClock Rat where
  read k := (k.now, { k with now := k.now + k.step })

theorem ExactClock.reading_eq (k : ExactClock) (n : Nat) :
    Clock.reading k n = k.now + n * k.step := by
  induction n generalizing k with
  | zero => exact (by rw [Nat.cast_zero, zero_mul, add_zero] : k.now = k.now + (0 : Nat) * k.step)
  | succ n ih =>
    have hnext : Clock.reading k (n + 1) = Clock.reading ({ k with now := k.now + k.step } :
        ExactClock) n := rfl
    rw [hnext, ih, Nat.cast_succ]
    ring

theorem exists_ok_of_isOk {ε α : Type} {x : Except ε α} (h : x.isOk = true) : ∃ a, x = .ok a := by
  cases x with
  | error e => cases h
  | ok a => exact ⟨a, rfl⟩

/-- The budget and the reports of a validation are only observed. Where the declared version and the
marker can be read, the validation times out exactly if some reading is too late, the reports go
forward to the end or to the timeout, and a result is the one that any budget which is not negative
gives on a clock that stands still, with nobody listening. -/
theorem validate_observes_time {κ κ' : Type} [Clock κ Rat] [Clock κ' Rat]
    (settings : ValidationSettings Rat) (fallback : ScriptVersion) {declared : Option Json}
    {version : Option ScriptVersion} (budget : Option Rat) (clock : κ) (listening : Bool)
    {script : Text} {found : Option FoundMarker} (hversion : declaredVersion declared = .ok version)
    (hfound : findMarker script = .ok found) :
    Observed script (budget.getD settings.maxTime)
        (9 + if hasLineRules (appliedVersion found version fallback) then (Text.lines script).length
          else 0) clock listening
        (validateWith listening settings fallback declared budget clock script) ∧
      ∀ r, (validateWith listening settings fallback declared budget clock script).outcome = .ok r →
        ∀ (still : κ') (budget' : Option Rat),
          (∀ n, Clock.reading still n = Clock.reading still 0) →
          (Text.isAllSpace script = false → 0 ≤ budget'.getD settings.maxTime) →
          (validateWith false settings fallback declared budget' still script).outcome = .ok r := by
  simp only [validateWith, hversion]
  cases hblank : Text.isAllSpace script with
  | true =>
    refine ⟨observed_blank settings fallback version listening budget clock _ hblank,
      fun r hr still budget' _ _ => ?_⟩
    rw [validateHeard_blank settings fallback version listening budget clock hblank] at hr
    rw [validateHeard_blank settings fallback version false budget' still hblank]
    exact hr
  | false =>
    refine ⟨observed_of_marker settings fallback version listening budget clock hblank hfound,
      fun r hr still budget' hstill h => ?_⟩
    rcases validateHeard_ok settings fallback version listening budget clock
      hr with ⟨hall, -⟩ | ⟨found', -, hfound', rfl⟩
    · rw [hblank] at hall
      exact absurd hall Bool.false_ne_true
    · exact validateHeard_still settings fallback version hblank hfound' hstill (h rfl)

/-- Two lines take eleven readings after the start: three seconds are not enough for them, eleven
are. -/
theorem validate_observes_time_seconds :
    let settings : ValidationSettings Rat := ⟨120, 11, 1, 50000, false, []⟩
    let script := "//@version=6\nindicator(\"x\")".toList
    let run (budget : Option Rat) : ValidationRun Rat ExactClock :=
      validateWith true settings .v5 none budget (⟨0, 1⟩ : ExactClock) script
    (∃ e, (run (some 3)).outcome = .error (.timeout e)) ∧
      ∃ r, (run none).outcome = .ok r ∧ (run none).reports.getLast? = some (8, 8) ∧
        (validateWith false settings .v5 none none (⟨5, 0⟩ : ExactClock) script).outcome = .ok
          r := by
  intro settings script run
  have hfound : findMarker script = .ok (some ⟨0, 6⟩) := findMarker_of_toOption (by decide +kernel)
  have hblank : Text.isAllSpace script = false := by decide +kernel
  have hstill (n : Nat) : Clock.reading (⟨5, 0⟩ : ExactClock) n =
      Clock.reading (⟨5, 0⟩ : ExactClock) 0 := by
    rw [ExactClock.reading_eq, ExactClock.reading_eq, mul_zero, mul_zero]
  obtain ⟨hshort, -⟩ := @validate_observes_time ExactClock ExactClock _ _ settings .v5 none none
    (some 3) ⟨0, 1⟩ true _ _ rfl
    hfound
  obtain ⟨hlong, hsame⟩ :=
    @validate_observes_time ExactClock ExactClock _ _ settings .v5 none none none
      ⟨0, 1⟩ true _ _ rfl
    hfound
  refine ⟨hshort.timeout_iff.mpr ⟨hblank, 4, by decide, by decide +kernel, ?_⟩, ?_⟩
  · rw [ExactClock.reading_eq, ExactClock.reading_eq]
    norm_num
  · obtain ⟨r, hr⟩ := exists_ok_of_isOk (by decide +kernel : (run none).outcome.isOk = true)
    exact ⟨r, hr, hlong.last rfl r hr, hsame r hr _ _ hstill fun _ => by decide +kernel⟩

/-- A budget below zero is exceeded where no time passes, but not on a clock that runs backwards. -/
theorem negative_budget_returns :
    let settings : ValidationSettings Rat := ⟨120, 180, 1, 50000, false, []⟩
    let script := "//@version=5\nindicator(\"x\")".toList
    ∃ r, (validateWith true settings .v5 none (some (-1)) (⟨0, -1⟩ : ExactClock) script).outcome =
      .ok r ∧
      (validateWith false settings .v5 none (some (-1)) (⟨0, 0⟩ : ExactClock) script).outcome ≠ .ok
        r := by
  intro settings script
  obtain ⟨r, hr⟩ := exists_ok_of_isOk (by decide +kernel :
    (validateWith true settings .v5 none (some (-1)) (⟨0, -1⟩ : ExactClock) script).outcome.isOk =
      true)
  refine ⟨r, hr, fun h => ?_⟩
  have hstill :
      (validateWith false settings .v5 none (some (-1)) (⟨0, 0⟩ : ExactClock) script).outcome.isOk =
      false := by
    decide +kernel
  rw [h] at hstill
  cases hstill

end PineTools
