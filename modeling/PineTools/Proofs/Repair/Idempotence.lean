import PineTools.Proofs.Repair.NoNewExports

namespace PineTools.Repair

theorem fix_changes_eq_nil_iff (fallback : ScriptVersion) {tables : RenameTables Text}
    (h : PlainTables tables) (t : Text) :
    (fix fallback tables t).changes = [] ↔
      Settled fallback tables t ∨ structuralImbalance t < structuralImbalance
        (repairAll fallback tables t).text := by
  rw [fix, ← repairAll_changes_eq_nil_iff fallback h]
  split
  case isTrue hkept => simpa using hkept
  case isFalse hfixed =>
    rw [Bool.or_eq_true, List.isEmpty_iff, decide_eq_true_iff] at hfixed
    exact ⟨.inl, fun h => absurd h hfixed⟩

theorem fix_script_of_changes {fallback : ScriptVersion} {tables : RenameTables Text} {t : Text}
    (h : (fix fallback tables t).changes = []) : (fix fallback tables t).script = t := by
  rw [fix] at h ⊢
  split at h
  case isTrue hkept => rw [if_pos hkept]
  case isFalse hfixed =>
    rw [Bool.or_eq_true, not_or, List.isEmpty_iff] at hfixed
    exact absurd h hfixed.1

theorem fix_script_of_fixed {fallback : ScriptVersion} {tables : RenameTables Text} {t : Text}
    (h : (fix fallback tables t).changes ≠ []) :
    (fix fallback tables t).script = (repairAll fallback tables t).text := by
  rw [fix] at h ⊢
  split at h
  case isTrue => exact absurd rfl h
  case isFalse hfixed => rw [if_neg hfixed]

section Stages

variable (fallback : ScriptVersion) {repair : Text → Repaired} {done : Repaired}

theorem continueWith_exceptOldest {v : ScriptVersion}
    (hdetect : detectVersion done.text fallback = .ok v) (hv : v ≠ .v4) :
    (continueWith done (exceptOldest fallback repair)).text = (repair done.text).text := by
  rw [continueWith_text, exceptOldest, hdetect]
  simp only [Except.map, if_neg hv]

theorem exceptOldest_keeps {P : Text → Prop} (h : P done.text)
    (hrepair : P (repair done.text).text) :
    P (continueWith done (exceptOldest fallback repair)).text := by
  cases hdetect : detectVersion done.text fallback with
  | error e =>
    rw [continueWith_text, exceptOldest, hdetect]
    exact h
  | ok v =>
    by_cases hv : v = .v4
    · rw [continueWith_text, exceptOldest, hdetect]
      simpa only [Except.map, if_pos hv] using h
    · rw [continueWith_exceptOldest fallback hdetect hv]
      exact hrepair

end Stages

/-- The structural repairs leave nothing open but perhaps a block comment. -/
theorem closed_structural (t : Text) : Closed (closeBrackets (closeLiterals t).text).text :=
  have h := structural_repairs_exact t
  ⟨h.1, h.2.1⟩

section Output

variable (fallback : ScriptVersion) {tables : RenameTables Text} (t : Text)

theorem afterRepairs_keeps {P : Text → Prop} (hP : KeptByRenames P) (h : PlainTables tables)
    (ht : P (afterRepairs fallback tables 4 t)) : P (afterRepairs fallback tables 6 t) := by
  rw [afterRepairs, foldl_take_six]
  have hstudy := exceptOldest_keeps fallback ht (hP.replaceStudy h ht)
  exact exceptOldest_keeps fallback hstudy (hP.namespaceBuiltins h hstudy)

theorem closed_afterRepairs (h : PlainTables tables) :
    Closed (afterRepairs fallback tables 6 t) :=
  (afterRepairs_keeps fallback t (keptByRenames_closed _) h
    ⟨(closed_structural _).insertMissingCommas.1, rfl⟩).1

/-- A script in which a marker stands and nothing is open is not changed before commas are put in.
-/
theorem afterRepairs_closed {t : Text} (hmarker : findMarker t ≠ .ok none) (h : Closed t) :
    afterRepairs fallback tables 4 t = (insertMissingCommas t).text := by
  have hfirst : continueWith ⟨t, []⟩ (addMarker fallback) = ⟨t, []⟩ :=
    continueWith_silent (candid_addMarker fallback) ((silent_addMarker fallback t).mpr hmarker)
  have hliterals : closeLiterals t = ⟨t, []⟩ := by rw [closeLiterals, h.literals]
  have hbrackets : closeBrackets t = ⟨t, []⟩ := by rw [closeBrackets, h.brackets]
  change (continueWith (continueWith (continueWith (continueWith ⟨t, []⟩ (addMarker fallback))
    fun t => .ok (closeLiterals t)) fun t => .ok (closeBrackets t))
      fun t => .ok (insertMissingCommas t)).text = _
  rw [hfirst]
  simp only [continueWith, hliterals, hbrackets]

theorem repairAll_text (h : PlainTables tables) : (repairAll fallback tables t).text =
    match detectVersion t fallback with
    | .ok v => (splitExports v (afterRepairs fallback tables 6 t)).text
    | .error _ => afterRepairs fallback tables 6 t := by
  have hmarker : firstMarker (afterRepairs fallback tables 6 t) =
      firstMarker (afterRepairs fallback tables 4 t) := by
    rw [afterRepairs, foldl_take_six,
      firstMarker_exceptOldest fallback (firstMarker_namespaceBuiltins h),
      firstMarker_exceptOldest fallback (firstMarker_replaceStudy h), afterRepairs]
  rw [← detectVersion_of_firstMarker fallback hmarker, repairAll_eq, continueWith_text,
    afterRepairs]
  cases detectVersion _ fallback <;> rfl

theorem afterRepairs_moved {v : ScriptVersion} (h : PlainTables tables)
    (hdetect : detectVersion t fallback = .ok v) (hv : v ≠ .v4) : afterRepairs fallback tables 6 t =
      (namespaceBuiltins tables
        (replaceStudy tables (afterRepairs fallback tables 4 t)).text).text := by
  have hkept {u : Text} (hu : firstMarker u = firstMarker (afterRepairs fallback tables 4 t)) :
      detectVersion u fallback = .ok v :=
    (detectVersion_of_firstMarker fallback hu).trans hdetect
  have hclosed := hkept rfl
  have hstudy := hkept (firstMarker_replaceStudy h _)
  rw [afterRepairs] at hclosed hstudy
  have htext := @continueWith_exceptOldest fallback (replaceStudy tables) _ _ hclosed hv
  rw [← htext] at hstudy
  rw [afterRepairs, foldl_take_six, continueWith_exceptOldest fallback hstudy hv, htext]
  rfl

theorem findMarker_addMarker :
    findMarker (continueWith ⟨t, []⟩ (addMarker fallback)).text ≠ .ok none := by
  rw [continueWith_text, addMarker]
  cases hfind : findMarker t with
  | error e => exact fun k => by cases hfind.symm.trans k
  | ok found =>
    cases found with
    | some m => exact fun k => by cases hfind.symm.trans k
    | none =>
      obtain ⟨digits, hdigits⟩ := Option.isSome_iff_exists.mp (isMarkerLine_marker fallback)
      change findMarker (fallback.marker ++ '\n' :: t) ≠ _
      rw [Ne, findMarker_eq_none_iff, firstMarker_newline,
        firstMarker_oneLine (oneLine_marker fallback), hdigits]
      exact Option.some_ne_none _

theorem findMarker_repairAll (h : PlainTables tables) :
    findMarker (repairAll fallback tables t).text ≠ .ok none := by
  rw [Ne, findMarker_eq_none_iff, firstMarker_repairAll fallback h, firstMarker_closed,
    ← findMarker_eq_none_iff]
  exact findMarker_addMarker fallback t

variable (h : MovesApart tables) (hexports : ExportsApart (afterRepairs fallback tables 6 t))
include h hexports

theorem closed_repairAll : Closed (repairAll fallback tables t).text := by
  have hclosed := closed_afterRepairs fallback t h.toPlainTables
  rw [repairAll_text fallback t h.toPlainTables]
  cases detectVersion t fallback with
  | ok v => exact hclosed.splitExports hexports v
  | error e => exact hclosed

theorem exports_repairAll (v : ScriptVersion)
    (hv : detectVersion (repairAll fallback tables t).text fallback = .ok v) :
    exportedVariables (repairAll fallback tables t).text = [] := by
  rw [detectVersion_repairAll fallback h.toPlainTables t] at hv
  rw [repairAll_text fallback t h.toPlainTables, hv]
  exact exportedVariables_splitExports hexports v

theorem settled_repairAll_iff :
    let s := (repairAll fallback tables t).text
    Settled fallback tables s ↔ commalessInputs s = [] ∧ missingCommas s = [] := by
  intro s
  have hdetect : detectVersion s fallback = detectVersion t fallback :=
    detectVersion_repairAll fallback h.toPlainTables t
  have hclosed := closed_repairAll fallback t h hexports
  have htext (v : ScriptVersion) (hv : detectVersion t fallback = .ok v) :
      s = (splitExports v (afterRepairs fallback tables 6 t)).text := by
    have := repairAll_text fallback t h.toPlainTables
    rwa [hv] at this
  refine ⟨fun hs => ⟨hs.inputs, hs.arguments⟩, fun ⟨hinputs, harguments⟩ =>
    ⟨findMarker_repairAll fallback t h.toPlainTables, hclosed.literals, hclosed.brackets, hinputs,
      harguments, fun v hv hnew => ?_, fun v hv hnew entry he => ?_,
      exports_repairAll fallback t h hexports⟩⟩
  · rw [hdetect] at hv
    rw [htext v hv]
    refine callsOf_splitExports hexports v (by decide) ?_
    rw [afterRepairs_moved fallback t h.toPlainTables hv hnew]
    exact namespaceBuiltins_study h (replaceStudy_gone h _)
  · rw [hdetect] at hv
    rw [htext v hv]
    refine Idle.splitExports hexports v (h.namespaced entry he).1.1 ?_
    rw [afterRepairs_moved fallback t h.toPlainTables hv hnew]
    exact namespaceBuiltins_idle h _ entry he

/-- A second run puts in commas at most, and these unbalance nothing. -/
theorem imbalance_repairAll_again :
    let s := (repairAll fallback tables t).text
    structuralImbalance (repairAll fallback tables s).text = structuralImbalance s := by
  intro s
  have hplain := h.toPlainTables
  have hcommas : afterRepairs fallback tables 4 s = (insertMissingCommas s).text :=
    afterRepairs_closed fallback (findMarker_repairAll fallback t hplain)
      (closed_repairAll fallback t h hexports)
  have hbalance : structuralImbalance (afterRepairs fallback tables 6 s) = structuralImbalance s :=
    (afterRepairs_keeps fallback s (keptByRenames_closed (structuralImbalance s)) hplain
      (by rw [hcommas]; exact (closed_repairAll fallback t h hexports).insertMissingCommas)).2
  rw [repairAll_text fallback s hplain]
  cases hv : detectVersion s fallback with
  | error e => exact hbalance
  | ok v =>
    have hnone : exportedVariables (afterRepairs fallback tables 6 s) = [] :=
      afterRepairs_keeps fallback s keptByRenames_exports hplain (by
        rw [hcommas]
        exact exportedVariables_insertMissingCommas (exports_repairAll fallback t h hexports v hv))
    exact (congrArg structuralImbalance
      (splitExports_candid v _ ((splitExports_changes v _).mpr hnone))).trans hbalance

end Output

/-- Where exported variables stand apart from block comments, fixing a fixed script does nothing
exactly if there was nothing to fix, or if no comma is missing in the fixed script: all else that
repairs find is gone. -/
theorem fix_idempotent_iff (fallback : ScriptVersion) {tables : RenameTables Text}
    (h : MovesApart tables) (t : Text)
    (hexports : ExportsApart (afterRepairs fallback tables 6 t)) :
    let s := (fix fallback tables t).script
    (fix fallback tables s).changes = [] ∧ (fix fallback tables s).script = s ↔
      (fix fallback tables t).changes = [] ∨ commalessInputs s = [] ∧ missingCommas s = [] := by
  intro s
  rw [and_iff_left_of_imp fix_script_of_changes]
  by_cases hnone : (fix fallback tables t).changes = []
  · have hs : s = t := fix_script_of_changes hnone
    rw [hs]
    exact ⟨.inl, fun _ => hnone⟩
  · have hs : s = (repairAll fallback tables t).text := fix_script_of_fixed hnone
    have hsettled : Settled fallback tables s ↔ commalessInputs s = [] ∧ missingCommas s = [] := by
      rw [hs]
      exact settled_repairAll_iff fallback t h hexports
    have hbalance : structuralImbalance (repairAll fallback tables s).text =
        structuralImbalance s := by
      rw [hs]
      exact imbalance_repairAll_again fallback t h hexports
    rw [or_iff_right hnone, fix_changes_eq_nil_iff fallback h.toPlainTables, hsettled, hbalance,
      or_iff_left (Nat.lt_irrefl _)]

/-- Here every repair finds something, and none of them does when the script is fixed again. -/
theorem fix_settles :
    let t := "export var x = 1 // one\nstudy(\"a\nplot(sma(close 14)".toList
    let s := ("//@version=5\nvar x = 1  // one\nexport x\nindicator(\"a\"\n" ++
      "plot(ta.sma(close, 14)))").toList
    ExportsApart (afterRepairs .v5 RenameTables.shipped 6 t) ∧
      (fix .v5 RenameTables.shipped t).script = s ∧
      (fix .v5 RenameTables.shipped t).changes.length = 7 ∧
      (fix .v5 RenameTables.shipped s).changes = [] ∧
      (fix .v5 RenameTables.shipped s).script = s := by
  intro t s
  have hexports : ExportsApart (afterRepairs .v5 RenameTables.shipped 6 t) := by
    rw [afterRepairs, repairs, namespaceBuiltins_shipped]
    decide +kernel
  have hfixed : (fix .v5 RenameTables.shipped t).script = s ∧
      (fix .v5 RenameTables.shipped t).changes.length = 7 := by
    rw [fix, repairAll, repairs, namespaceBuiltins_shipped]
    decide +kernel
  have hcommas : commalessInputs s = [] ∧ missingCommas s = [] := by decide +kernel
  have hagain := (fix_idempotent_iff .v5 movesApart_shipped t hexports).mpr
    (by rw [hfixed.1]; exact .inr hcommas)
  rw [hfixed.1] at hagain
  exact ⟨hexports, hfixed.1, hfixed.2, hagain⟩

/-- A token that ends in a dot is taken for an argument, but no comma goes behind it. -/
theorem fix_not_idempotent :
    let s := (fix .v5 RenameTables.shipped "//@version=5\nf(a. b)".toList).script
    (fix .v5 RenameTables.shipped s).changes =
      ["Inserted missing commas between arguments of 'f()' in line 2"] := by
  intro s
  have hs : s = "//@version=5\nf(a. b)".toList := by
    rw [show s = (fix .v5 RenameTables.shipped "//@version=5\nf(a. b)".toList).script from rfl, fix,
      repairAll, repairs, namespaceBuiltins_shipped]
    decide +kernel
  rw [hs, fix, repairAll, repairs, namespaceBuiltins_shipped]
  decide +kernel

/-- Where a block comment goes on behind an exported variable the run that declares it uncovers
the next line, and the second run finds another one. -/
theorem fix_uncovers_export :
    let t := "//@version=5\nexport var x = /*\nexport var y = 2 */".toList
    let s := "//@version=5\nvar x = \nexport x\nexport var y = 2 */".toList
    ¬ ExportsApart (afterRepairs .v5 RenameTables.shipped 6 t) ∧
      (fix .v5 RenameTables.shipped t).script = s ∧
      (fix .v5 RenameTables.shipped s).changes =
        ["Rewrote 'export var y' as 'var y = ...' followed by 'export y' in line 4"] := by
  intro t s
  refine ⟨?_, ?_, ?_⟩
  · rw [afterRepairs, repairs, namespaceBuiltins_shipped]
    decide +kernel
  · rw [fix, repairAll, repairs, namespaceBuiltins_shipped]
    decide +kernel
  · rw [fix, repairAll, repairs, namespaceBuiltins_shipped]
    decide +kernel

end PineTools.Repair
