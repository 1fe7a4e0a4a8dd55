import PineTools.Proofs.Repair.Brackets
import PineTools.Proofs.Repair.Commas
import PineTools.Proofs.Repair.Exports
import PineTools.Proofs.Scan.Respelling
import PineTools.Repair.Fix

/-! What fixing does to the comments and the literals of a script. A repair writes code only, so
each of them stays as it was, but for the marker in front and the closed literals; where a comma
goes the mask hides comments, and they go. -/
namespace PineTools.Repair

open Mode

/-- The comment that a script without marker gets. -/
def markerNotes (fallback : ScriptVersion) (t : Text) : List Text :=
  match findMarker t with
  | .ok none => [fallback.marker]
  | _ => []

def afterRepairs (fallback : ScriptVersion) (tables : RenameTables Text) (count : Nat) (t : Text) :
    Text :=
  (((repairs fallback tables).take count).foldl continueWith ⟨t, []⟩).text

theorem notes_marker (v : ScriptVersion) :
    notes v.marker = [v.marker] ∧ Mode.start.after none v.marker = .line := by
  cases v <;> decide

theorem continueWith_text (done : Repaired) (repair : Remedy) :
    (continueWith done repair).text = match repair done.text with
      | .ok r => r.text
      | .error _ => done.text := by
  rw [continueWith]
  cases repair done.text <;> rfl

theorem notes_addMarker (fallback : ScriptVersion) (t : Text) :
    notes (continueWith ⟨t, []⟩ (addMarker fallback)).text = markerNotes fallback t ++ notes t := by
  rw [continueWith_text, addMarker, markerNotes]
  cases findMarker t with
  | error e => rfl
  | ok found =>
    cases found with
    | some found => rfl
    | none =>
      obtain ⟨hnotes, hafter⟩ := notes_marker fallback
      change notes (fallback.marker ++ '\n' :: t) = _
      rw [notes_newline (by rw [hafter]; rfl), hnotes]

/-- The first three repairs add the marker and close literals. -/
theorem notes_closed (fallback : ScriptVersion) (tables : RenameTables Text) (t : Text) :
    notes (afterRepairs fallback tables 3 t) = markerNotes fallback t ++
      (notes t).map (closedLine .start) := by
  have htext : afterRepairs fallback tables 3 t =
      (closeBrackets (closeLiterals (continueWith ⟨t, []⟩ (addMarker fallback)).text).text).text :=
        rfl
  have hmarker : (markerNotes fallback t).map (closedLine .start) = markerNotes fallback t := by
    rw [markerNotes]
    split
    · rw [List.map_singleton, closedLine, (notes_marker fallback).2]
    · rfl
  rw [htext, notes_closeBrackets (unclosedLiterals_closeLiterals _), notes_closeLiterals,
    notes_addMarker, List.map_append, hmarker]

theorem notes_exceptOldest (fallback : ScriptVersion) {repair : Text → Repaired}
    (h : ∀ t, notes (repair t).text = notes t) (done : Repaired) :
    notes (continueWith done (exceptOldest fallback repair)).text = notes done.text := by
  rw [continueWith_text, exceptOldest]
  cases detectVersion done.text fallback with
  | error e => rfl
  | ok v =>
    by_cases hv : v = .v4
    · simp [Except.map, hv]
    · simp [Except.map, hv, h]

theorem repairAll_eq (fallback : ScriptVersion) (tables : RenameTables Text) (t : Text) :
    repairAll fallback tables t =
    continueWith (((repairs fallback tables).take 6).foldl continueWith ⟨t, []⟩)
      fun t => (detectVersion t fallback).map fun v => splitExports v t := by
  simp only [repairAll, repairs, List.take_succ_cons, List.take_zero, List.foldl_cons,
    List.foldl_nil]

theorem foldl_take_six (fallback : ScriptVersion) (tables : RenameTables Text) (t : Text) :
    ((repairs fallback tables).take 6).foldl continueWith ⟨t, []⟩ =
      continueWith (continueWith (((repairs fallback tables).take 4).foldl continueWith ⟨t, []⟩)
        (exceptOldest fallback (replaceStudy tables)))
          (exceptOldest fallback (namespaceBuiltins tables)) := by
  simp only [repairs, List.take_succ_cons, List.take_zero, List.foldl_cons, List.foldl_nil]

theorem notes_renamed (fallback : ScriptVersion) {tables : RenameTables Text}
    (h : PlainTables tables) (t : Text) :
    notes (afterRepairs fallback tables 6 t) = notes (afterRepairs fallback tables 4 t) := by
  rw [afterRepairs, foldl_take_six, notes_exceptOldest fallback (notes_namespaceBuiltins h),
    notes_exceptOldest fallback (notes_replaceStudy h)]
  rfl

theorem notes_repairAll (fallback : ScriptVersion) {tables : RenameTables Text}
    (h : PlainTables tables) {t : Text}
    (hexports : ExportsClear (afterRepairs fallback tables 6 t)) :
    notes (repairAll fallback tables t).text =
      notes (insertMissingCommas (afterRepairs fallback tables 3 t)).text := by
  have hlast : notes (repairAll fallback tables t).text =
      notes (afterRepairs fallback tables 6 t) := by
    rw [repairAll_eq, continueWith_text]
    cases hv : detectVersion (afterRepairs fallback tables 6 t) fallback with
    | error e =>
      rw [afterRepairs] at hv ⊢
      rw [hv]
      rfl
    | ok v =>
      have hsplit := notes_splitExports hexports v
      rw [afterRepairs] at hv hsplit ⊢
      rw [hv]
      exact hsplit
  rw [hlast, notes_renamed fallback h]
  rfl

/-- A fixed script whose exports are clear has the comments and literals of the script, with the
marker in front and literals closed, exactly if no comment stood where a comma went. An export that
is not clear changes a comment: one in the head of the declaration is dropped or written twice, one
that goes on behind the line takes in the new export, and one up to the end of the line loses white
space there. -/
theorem fix_keeps_notes_iff (fallback : ScriptVersion) {tables : RenameTables Text}
    (h : PlainTables tables) (t : Text)
    (hexports : ExportsClear (afterRepairs fallback tables 6 t)) :
    (fix fallback tables t).script = t ∨
      (notes (fix fallback tables t).script = markerNotes fallback t ++
        (notes t).map (closedLine .start) ↔
        InputsClear (afterRepairs fallback tables 3 t) ∧
          ArgumentsClear (separateInputs (afterRepairs fallback tables 3 t)).text) := by
  rw [fix]
  split
  · exact .inl rfl
  · refine .inr ?_
    rw [← notes_closed fallback tables t, ← notes_insertMissingCommas]
    dsimp only
    rw [notes_repairAll fallback h hexports]

/-- Here the marker is added, a literal and a bracket are closed, and the comment behind an exported
variable is kept. -/
theorem fix_keeps_notes_exported :
    let t := "export var x = f(\"a\" // one".toList
    ExportsClear (afterRepairs .v5 RenameTables.shipped 6 t) ∧
      (fix .v5 RenameTables.shipped t).script ≠ t ∧
      notes (fix .v5 RenameTables.shipped t).script = markerNotes .v5 t ++
        (notes t).map (closedLine .start) := by
  intro t
  have hexports : ExportsClear (afterRepairs .v5 RenameTables.shipped 6 t) := by
    rw [afterRepairs, repairs, namespaceBuiltins_shipped]
    decide +kernel
  have hfixed : (fix .v5 RenameTables.shipped t).script ≠ t := by
    rw [fix, repairAll, repairs, namespaceBuiltins_shipped]
    decide +kernel
  have hclear : InputsClear (afterRepairs .v5 RenameTables.shipped 3 t) ∧
      ArgumentsClear (separateInputs (afterRepairs .v5 RenameTables.shipped 3 t)).text := by
    rw [afterRepairs, repairs]
    decide +kernel
  have hkept := fix_keeps_notes_iff .v5 plainTables_shipped t hexports
  exact ⟨hexports, hfixed, (hkept.resolve_left hfixed).mpr hclear⟩

/-- A comment between two arguments is lost. -/
theorem fix_loses_comment :
    let t := "//@version=5\nf(a /* c */ b)".toList
    (fix .v5 RenameTables.shipped t).script = "//@version=5\nf(a, b)".toList ∧
      notes (fix .v5 RenameTables.shipped t).script ≠ markerNotes .v5 t ++
        (notes t).map (closedLine .start) := by
  intro t
  rw [fix, repairAll, repairs, namespaceBuiltins_shipped]
  decide +kernel

end PineTools.Repair
