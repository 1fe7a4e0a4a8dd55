import PineTools.Proofs.Repair.Commas
import PineTools.Proofs.Repair.Exports
import PineTools.Proofs.Repair.Renames
import PineTools.Repair.Fix

/-! Scripts in which no repair finds anything. A repair that lists no change leaves the text as it
is, so the repairs behind it look at the same text, and all of them list nothing exactly if each
finds nothing in the script itself. -/
namespace PineTools.Repair

def Remedy.Candid (repair : Remedy) : Prop := ∀ t r, repair t = .ok r → r.changes = [] → r.text = t

/-- The repair has nothing to say about a text. -/
def Remedy.Silent (repair : Remedy) (t : Text) : Prop := ∀ r, repair t = .ok r → r.changes = []

theorem continueWith_silent {repair : Remedy} {done : Repaired} (hc : repair.Candid)
    (h : repair.Silent done.text) :
    continueWith done repair = done := by
  rw [continueWith]
  cases hr : repair done.text with
  | error e => rfl
  | ok r =>
    have hchanges := h r hr
    simp only [hc _ r hr hchanges, hchanges, List.append_nil]

/-- Several repairs list nothing exactly if each of them has nothing to say about the text at the
start. -/
theorem foldl_changes_eq_nil_iff {remedies : List Remedy} (hc : ∀ repair ∈ remedies, repair.Candid)
    (done : Repaired) :
    (remedies.foldl continueWith done).changes = [] ↔ done.changes = [] ∧ ∀ repair ∈ remedies,
      repair.Silent done.text := by
  induction remedies generalizing done with
  | nil => exact ⟨fun h => ⟨h, fun _ hr => by cases hr⟩, And.left⟩
  | cons repair rest ih =>
    obtain ⟨hfirst, hrest⟩ := List.forall_mem_cons.mp hc
    rw [List.foldl_cons, ih hrest, List.forall_mem_cons]
    constructor
    · rintro ⟨hchanges, hsilent⟩
      have hown : done.changes = [] ∧ repair.Silent done.text := by
        rw [continueWith] at hchanges
        cases hr : repair done.text with
        | error e =>
          rw [hr] at hchanges
          exact ⟨hchanges, fun r e => by cases hr.symm.trans e⟩
        | ok r =>
          rw [hr, List.append_eq_nil_iff] at hchanges
          exact ⟨hchanges.1, fun r' e => by cases hr.symm.trans e; exact hchanges.2⟩
      rw [continueWith_silent hfirst hown.2] at hsilent
      exact ⟨hown.1, hown.2, hsilent⟩
    · rintro ⟨hchanges, hown, hsilent⟩
      rw [continueWith_silent hfirst hown]
      exact ⟨hchanges, hsilent⟩

theorem silent_ok {repair : Text → Repaired} {t : Text} :
    Remedy.Silent (fun t => .ok (repair t)) t ↔ (repair t).changes = [] :=
  ⟨fun h => h _ rfl, fun h r e => by cases e; exact h⟩

theorem candid_ok {repair : Text → Repaired} (h : ∀ t, (repair t).changes = [] →
    (repair t).text = t) :
    Remedy.Candid fun t => .ok (repair t) := by
  intro t r e
  cases e
  exact h t

theorem map_eq_ok {α β ε : Type} {f : α → β} {x : Except ε α} {b : β} :
    x.map f = .ok b ↔ ∃ a, x = .ok a ∧ f a = b := by
  cases x <;> simp [Except.map]

theorem silent_map {α : Type} {find : Text → Except Decimal.NumeralError α}
    {repair : Text → α → Repaired} {t : Text} :
    Remedy.Silent (fun t => (find t).map (repair t)) t ↔ ∀ a, find t = .ok a →
    (repair t a).changes = [] := by
  constructor
  · exact fun h a ha => h _ (map_eq_ok.mpr ⟨a, ha, rfl⟩)
  · intro h r e
    obtain ⟨a, ha, rfl⟩ := map_eq_ok.mp e
    exact h a ha

theorem candid_map {α : Type} {find : Text → Except Decimal.NumeralError α}
    {repair : Text → α → Repaired} (h : ∀ t a, (repair t a).changes = [] → (repair t a).text = t) :
    Remedy.Candid fun t => (find t).map (repair t) := by
  intro t r e
  obtain ⟨a, -, rfl⟩ := map_eq_ok.mp e
  exact h t a

theorem closeLiterals_changes (t : Text) :
    (closeLiterals t).changes = [] ↔ unclosedLiterals t = [] := by
  unfold closeLiterals
  split
  case h_1 h => exact ⟨fun _ => h, fun _ => rfl⟩
  case h_2 => exact List.map_eq_nil_iff

theorem closeBrackets_changes (t : Text) :
    (closeBrackets t).changes = [] ↔ (matchBrackets t).unclosed = [] := by
  unfold closeBrackets
  split
  case h_1 h => exact ⟨fun _ => h, fun _ => rfl⟩
  case h_2 h => exact ⟨(nomatch ·), fun e => absurd e h⟩

theorem insertMissingCommas_changes (t : Text) :
    (insertMissingCommas t).changes = [] ↔ commalessInputs t = [] ∧ missingCommas t = [] := by
  have hinputs : (separateInputs t).changes = [] ↔ commalessInputs t = [] := List.map_eq_nil_iff
  have harguments (u : Text) : (separateArguments u).changes = [] ↔ missingCommas u = [] :=
    List.map_eq_nil_iff
  rw [insertMissingCommas, List.append_eq_nil_iff, hinputs, harguments]
  refine and_congr_right fun h => ?_
  rw [separateInputs_text, h]
  rfl

theorem insertMissingCommas_candid (t : Text) (h : (insertMissingCommas t).changes = []) :
    (insertMissingCommas t).text = t := by
  obtain ⟨hinputs, harguments⟩ := (insertMissingCommas_changes t).mp h
  have hfirst : (separateInputs t).text = t := by
    rw [separateInputs_text, hinputs]
    rfl
  rw [insertMissingCommas, hfirst, separateArguments_text, harguments]
  rfl

/-- What comes of renaming the calls of a name: nothing if there are none. -/
theorem renameCalls_cases {name : Text} (h : IsName name) (new t : Text) :
    callsOf name t = [] ∧ (∃ text, renameCalls name new t = (text, 0)) ∨
      callsOf name t ≠ [] ∧ ∃ n, renameCalls name new t = ((renameCalls name new t).1, n + 1) := by
  have hcount : (renameCalls name new t).2 = (callsOf name t).length := by rw [renameCalls_eq h]
  cases hcalls : callsOf name t with
  | nil =>
    rw [hcalls] at hcount
    exact .inl ⟨rfl, _, Prod.ext rfl hcount⟩
  | cons m ms =>
    rw [hcalls] at hcount
    exact .inr ⟨List.cons_ne_nil m ms, ms.length, Prod.ext rfl hcount⟩

theorem replaceStudy_cases (tables : RenameTables Text) (t : Text) :
    callsOf "study".toList t = [] ∧ replaceStudy tables t = ⟨t, []⟩ ∨
      callsOf "study".toList t ≠ [] ∧
        ∃ change, replaceStudy tables t =
          ⟨(renameCalls "study".toList (studyTarget tables) t).1, [change]⟩ := by
  rw [replaceStudy, ← studyTarget]
  rcases renameCalls_cases (by decide : IsName "study".toList)
    (studyTarget tables) t with ⟨hnone, text, h⟩ | ⟨hsome, n, h⟩
  · rw [h]
    exact .inl ⟨hnone, rfl⟩
  · rw [h]
    exact .inr ⟨hsome, _, rfl⟩

def Idle (name t : Text) : Prop := definesFunction (mask t) name = true ∨ callsOf name t = []

/-- The part of the repair that is about one built-in function. -/
def moveCalls (entry : Text × Text) : Remedy := fun t => .ok (namespaceCalls ⟨t, []⟩ entry)

theorem namespaceCalls_eq (r : Repaired) (entry : Text × Text) :
    namespaceCalls r entry = continueWith r (moveCalls entry) := by
  rw [continueWith, moveCalls, namespaceCalls, namespaceCalls]
  split
  · simp
  · cases renameCalls entry.1 entry.2 r.text with
    | mk new n => cases n <;> simp

theorem namespaceCalls_cases {entry : Text × Text} (h : IsName entry.1) (t : Text) :
    Idle entry.1 t ∧ namespaceCalls ⟨t, []⟩ entry = ⟨t, []⟩ ∨
      ¬ Idle entry.1 t ∧ ∃ change, namespaceCalls ⟨t, []⟩ entry =
        ⟨(renameCalls entry.1 entry.2 t).1, [change]⟩ := by
  rw [namespaceCalls, Idle]
  split
  case isTrue hdef => exact .inl ⟨.inl hdef, rfl⟩
  case isFalse hdef =>
    rcases renameCalls_cases h entry.2 t with ⟨hnone, text, h⟩ | ⟨hsome, n, h⟩
    · rw [h]
      exact .inl ⟨.inr hnone, rfl⟩
    · rw [h]
      exact .inr ⟨not_or.mpr ⟨hdef, hsome⟩, _, rfl⟩

theorem silent_moveCalls {entry : Text × Text} (h : IsName entry.1) (t : Text) :
    (moveCalls entry).Silent t ↔ Idle entry.1 t := by
  refine silent_ok.trans ?_
  rcases namespaceCalls_cases h t with ⟨hidle, e⟩ | ⟨hbusy, change, e⟩ <;> rw [e]
  · exact ⟨fun _ => hidle, fun _ => rfl⟩
  · exact ⟨(nomatch ·), fun hidle => absurd hidle hbusy⟩

theorem candid_moveCalls {entry : Text × Text} (h : IsName entry.1) : (moveCalls entry).Candid := by
  refine candid_ok fun t hchanges => ?_
  rcases namespaceCalls_cases h t with ⟨-, e⟩ | ⟨-, change, e⟩
  · rw [e]
  · rw [e] at hchanges
    cases hchanges

theorem foldl_candid {remedies : List Remedy} (hc : ∀ repair ∈ remedies, repair.Candid) {t : Text}
    (h : (remedies.foldl continueWith ⟨t, []⟩).changes = []) :
    remedies.foldl continueWith ⟨t, []⟩ = ⟨t, []⟩ := by
  have hsilent := ((foldl_changes_eq_nil_iff hc _).mp h).2
  induction remedies with
  | nil => rfl
  | cons repair rest ih =>
    obtain ⟨hfirst, hrest⟩ := List.forall_mem_cons.mp hc
    obtain ⟨hown, hsilent⟩ := List.forall_mem_cons.mp hsilent
    rw [List.foldl_cons, continueWith_silent hfirst hown] at h ⊢
    exact ih hrest h hsilent

theorem namespaceBuiltins_eq (tables : RenameTables Text) (t : Text) : namespaceBuiltins tables t =
    ((tables.namespacedFunctions.mergeSort entryLe).map moveCalls).foldl continueWith ⟨t, []⟩ := by
  rw [namespaceBuiltins, List.foldl_map]
  congr 1
  funext r entry
  exact namespaceCalls_eq r entry

section Builtins

variable {tables : RenameTables Text} (h : PlainTables tables)
include h

theorem candid_moves :
    ∀ repair ∈ (tables.namespacedFunctions.mergeSort entryLe).map moveCalls, repair.Candid := by
  intro repair hr
  obtain ⟨entry, he, rfl⟩ := List.mem_map.mp hr
  exact candid_moveCalls (h.namespaced entry (List.mem_mergeSort.mp he)).1.1

theorem namespaceBuiltins_changes (t : Text) :
    (namespaceBuiltins tables t).changes = [] ↔ ∀ entry ∈ tables.namespacedFunctions,
      Idle entry.1 t := by
  rw [namespaceBuiltins_eq, foldl_changes_eq_nil_iff (candid_moves h), List.forall_mem_map]
  constructor
  · intro hsilent entry he
    exact (silent_moveCalls (h.namespaced entry he).1.1 t).mp
      (hsilent.2 entry (List.mem_mergeSort.mpr he))
  · refine fun hidle => ⟨rfl, fun entry he => ?_⟩
    have he := List.mem_mergeSort.mp he
    exact (silent_moveCalls (h.namespaced entry he).1.1 t).mpr (hidle entry he)

theorem namespaceBuiltins_candid (t : Text) (hchanges : (namespaceBuiltins tables t).changes = []) :
    (namespaceBuiltins tables t).text = t := by
  rw [namespaceBuiltins_eq] at hchanges ⊢
  rw [foldl_candid (candid_moves h) hchanges]

end Builtins

theorem replaceStudy_changes (tables : RenameTables Text) (t : Text) :
    (replaceStudy tables t).changes = [] ↔ callsOf "study".toList t = [] := by
  rcases replaceStudy_cases tables t with ⟨hnone, e⟩ | ⟨hsome, change, e⟩ <;> rw [e]
  · exact ⟨fun _ => hnone, fun _ => rfl⟩
  · exact ⟨(nomatch ·), fun hnone => absurd hnone hsome⟩

theorem replaceStudy_candid (tables : RenameTables Text) (t : Text)
    (h : (replaceStudy tables t).changes = []) :
    (replaceStudy tables t).text = t := by
  rcases replaceStudy_cases tables t with ⟨-, e⟩ | ⟨-, change, e⟩
  · rw [e]
  · rw [e] at h
    cases h

theorem splitExports_changes (v : ScriptVersion) (t : Text) :
    (splitExports v t).changes = [] ↔ exportedVariables t = [] :=
  List.map_eq_nil_iff

theorem splitExports_candid (v : ScriptVersion) (t : Text) (h : (splitExports v t).changes = []) :
    (splitExports v t).text = t := by
  rw [splitExports_text, (splitExports_changes v t).mp h]
  rfl

theorem candid_addMarker (fallback : ScriptVersion) : (addMarker fallback).Candid := by
  refine candid_map fun t found h => ?_
  cases found with
  | some m => rfl
  | none => cases h

theorem silent_addMarker (fallback : ScriptVersion) (t : Text) :
    (addMarker fallback).Silent t ↔ findMarker t ≠ .ok none := by
  refine silent_map.trans ?_
  constructor
  · intro h e
    cases h none e
  · intro h found e
    cases found with
    | some m => rfl
    | none => exact absurd e h

theorem candid_exceptOldest (fallback : ScriptVersion) {repair : Text → Repaired}
    (h : ∀ t, (repair t).changes = [] → (repair t).text = t) :
    (exceptOldest fallback repair).Candid := by
  refine candid_map fun t v hchanges => ?_
  by_cases hv : v = .v4
  · rw [if_pos hv]
  · rw [if_neg hv] at hchanges ⊢
    exact h t hchanges

theorem silent_exceptOldest (fallback : ScriptVersion) (repair : Text → Repaired) (t : Text) :
    (exceptOldest fallback repair).Silent t ↔
      ∀ v, detectVersion t fallback = .ok v → v ≠ .v4 → (repair t).changes = [] := by
  refine silent_map.trans ?_
  refine forall₂_congr fun v _ => ?_
  by_cases hv : v = .v4
  · simp [hv]
  · simp [hv]

theorem candid_repairs (fallback : ScriptVersion) {tables : RenameTables Text}
    (h : PlainTables tables) :
    ∀ repair ∈ repairs fallback tables, repair.Candid := by
  have hliterals (t : Text) (hc : (closeLiterals t).changes = []) : (closeLiterals t).text = t := by
    rw [closeLiterals, (closeLiterals_changes t).mp hc]
  have hbrackets (t : Text) (hc : (closeBrackets t).changes = []) : (closeBrackets t).text = t := by
    rw [closeBrackets, (closeBrackets_changes t).mp hc]
  simp only [repairs, List.forall_mem_cons]
  exact ⟨candid_addMarker fallback, candid_ok hliterals, candid_ok hbrackets,
    candid_ok insertMissingCommas_candid, candid_exceptOldest fallback (replaceStudy_candid tables),
    candid_exceptOldest fallback (namespaceBuiltins_candid h), candid_map fun t v =>
      splitExports_candid v t, fun _ hr => by cases hr⟩

/-- A script in which no repair finds anything. -/
structure Settled (fallback : ScriptVersion) (tables : RenameTables Text) (t : Text) : Prop where
  marker : findMarker t ≠ .ok none
  literals : unclosedLiterals t = []
  brackets : (matchBrackets t).unclosed = []
  inputs : commalessInputs t = []
  arguments : missingCommas t = []
  study : ∀ v, detectVersion t fallback = .ok v → v ≠ .v4 → callsOf "study".toList t = []
  builtins : ∀ v, detectVersion t fallback = .ok v → v ≠ .v4 → ∀ entry ∈ tables.namespacedFunctions,
    Idle entry.1 t
  exports : ∀ v, detectVersion t fallback = .ok v → exportedVariables t = []

/-- The repairs list no change exactly for a script in which none of them finds anything. -/
theorem repairAll_changes_eq_nil_iff (fallback : ScriptVersion) {tables : RenameTables Text}
    (h : PlainTables tables) (t : Text) :
    (repairAll fallback tables t).changes = [] ↔ Settled fallback tables t := by
  rw [repairAll, foldl_changes_eq_nil_iff (candid_repairs fallback h)]
  simp only [repairs, List.forall_mem_cons, silent_addMarker, silent_ok,
    silent_exceptOldest, silent_map, closeLiterals_changes, closeBrackets_changes,
    insertMissingCommas_changes, replaceStudy_changes, namespaceBuiltins_changes h,
    splitExports_changes]
  constructor
  · rintro ⟨-, hmarker, hliterals, hbrackets, ⟨hinputs, harguments⟩, hstudy, hbuiltins, hexports, -⟩
    exact ⟨hmarker, hliterals, hbrackets, hinputs, harguments, hstudy, hbuiltins, hexports⟩
  · intro hs
    exact ⟨trivial, hs.marker, hs.literals, hs.brackets, ⟨hs.inputs, hs.arguments⟩, hs.study,
      hs.builtins, hs.exports, fun _ hr => by cases hr⟩

end PineTools.Repair
