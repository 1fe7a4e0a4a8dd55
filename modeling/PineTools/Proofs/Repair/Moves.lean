import PineTools.Proofs.Construct.DefinedNames
import PineTools.Proofs.Convert.Names
import PineTools.Proofs.Repair.Settled
import PineTools.Proofs.Repair.Versions

namespace PineTools

open Reader

section Lines

variable {f : Text → Text}

theorem mem_mapCalls (hf : Spelling f) {t : Text} {c : Char} (h : c ∈ mapCalls f t) :
    c ∈ t ∨ Text.isWordOrDot c = true := by
  suffices ∀ read : Text, (∀ x ∈ read, inName x = true) → c ∈ mapCallsFrom f read t →
      c ∈ t ∨ Text.isWordOrDot c = true from this [] (List.forall_mem_nil _) h
  clear h
  induction t with
  | nil => exact fun read hread h => .inr (hread c h)
  | cons x t ih =>
    intro read hread h
    rw [mapCallsFrom] at h
    by_cases hx : inName x = true
    · rw [if_pos hx] at h
      refine (ih _ ?_ h).imp_left (List.mem_cons_of_mem x)
      exact List.forall_mem_append.mpr ⟨hread, List.forall_mem_singleton.mpr hx⟩
    · rw [if_neg hx, List.mem_append, List.mem_cons] at h
      rcases h with h | rfl | h
      · split at h
        · exact .inr (hf.inName hread c h)
        · exact .inr (hread c h)
      · exact .inl List.mem_cons_self
      · exact (ih [] (List.forall_mem_nil _) h).imp_left (List.mem_cons_of_mem x)

theorem lines_mapCalls (hf : Spelling f) (t : Text) :
    Text.lines (mapCalls f t) = (Text.lines t).map (mapCalls f) := by
  have hline {l : Text} (hl : Text.OneLine l) : Text.OneLine (mapCalls f l) := by
    intro h
    rcases mem_mapCalls hf h with h | h
    · exact hl h
    · exact absurd h (by decide)
  have hdivides : Divides '\n' := by
    rw [Divides]
    decide
  induction t using Text.lines_induction with
  | last l hl => rw [Text.lines_of_oneLine hl, Text.lines_of_oneLine (hline hl), List.map_singleton]
  | more l t hl ih =>
    rw [mapCalls_append_divider hdivides, Text.lines_append_newline hl,
      Text.lines_append_newline (hline hl), List.map_cons, ih]

end Lines

theorem definesFunction_mapCalls {f : Text → Text} (hf : Spelling f) {m name : Text}
    (hkept : f name = name) (h : definesFunction m name = true) :
    definesFunction (mapCalls f m) name = true := by
  rw [definesFunction, List.any_eq_true] at h ⊢
  obtain ⟨l, hl, h⟩ := h
  cases hread : functionDefinition.readAt? l with
  | none =>
    rw [hread] at h
    cases h
  | some d =>
    rw [hread] at h
    obtain ⟨⟨d, rest⟩, happ, rfl⟩ := Option.map_eq_some_iff.mp hread
    have hname : d.name = name := (List.map_id d.name).symm.trans (beq_iff_eq.mp h)
    obtain ⟨d', rest', happ', hsame⟩ := functionDefinition_mapCalls hf.nil happ (by rwa [hname])
    refine ⟨mapCalls f l, ?_, ?_⟩
    · rw [lines_mapCalls hf]
      exact List.mem_map_of_mem hl
    · have hread' : functionDefinition.readAt? (mapCalls f l) = some d' :=
        congrArg (Option.map Prod.fst) happ'
      rw [hread']
      exact beq_iff_eq.mpr ((List.map_id d'.name).trans (hsame.trans hname))

namespace Repair

theorem callsOf_eq_nil_iff {name : Text} (h : IsName name) (t : Text) :
    callsOf name t = [] ↔ name ∉ calls (mask t) := by
  have hfound : (callOf name : Pattern Cell Unit).occursIn (cells t) =
      !(callsOf name t).isEmpty := by
    rw [Pattern.occursIn, Pattern.find?, callsOf]
    cases (callOf name).findAll (cells t) <;> rfl
  have hcalls : calls (mask t) = (calls (cells t)).map seenText := calls_seenText (cells t)
  rw [occursIn_callOf h] at hfound
  rw [hcalls, ← List.isEmpty_iff]
  constructor
  · intro hempty hmem
    obtain ⟨u, hu, e⟩ := List.mem_map.mp hmem
    rw [hempty, Bool.not_true, List.any_eq_false] at hfound
    exact hfound u hu (beq_iff_eq.mpr e)
  · intro hmem
    rw [← Bool.not_eq_false', ← hfound, List.any_eq_false]
    exact fun u hu e => hmem (List.mem_map.mpr ⟨u, hu, beq_iff_eq.mp e⟩)

section Renames

variable {name new : Text} (hname : IsName name) (hnew : IsName new)
include hname hnew

theorem mask_renameCalls (t : Text) :
    mask (renameCalls name new t).1 = mapCalls (renamed name new) (mask t) := by
  have hcells : cells (renameCalls name new t).1 =
      mapCalls (renamed name (new.map codeCell)) (cells t) := Convert.cells_renameCalls hname hnew t
  have hspelt (u : List Cell) : seenText (renamed name (new.map codeCell) u) =
      renamed name new (seenText u) := by
    have hsame : seenText (seenText u) = seenText u := List.map_id _
    rw [renamed, renamed, hsame]
    split
    · rw [seenText, List.map_map]
      exact (List.map_congr_left fun c _ => codeCell_masked c).trans (List.map_id new)
    · rfl
  change seenText (cells (renameCalls name new t).1) = _
  rw [hcells, seenText_mapCalls hspelt]
  rfl

theorem spelling_renamed_text : Spelling (renamed name new : Text → Text) :=
  spelling_renamed hname hnew.1 hnew.2

/-- A move leaves no call of the name that moved, and makes none of any name but the new one. -/
theorem callsOf_renameCalls {k t : Text} (hk : IsName k) (hother : k ≠ new)
    (h : k = name ∨ callsOf k t = []) : callsOf k (renameCalls name new t).1 = [] := by
  rw [callsOf_eq_nil_iff hk] at h ⊢
  rw [mask_renameCalls hname hnew, calls_mapCalls (spelling_renamed_text hname hnew)]
  intro hmem
  obtain ⟨u, hu, e⟩ := List.mem_map.mp hmem
  have hseen : seenText u = u := List.map_id u
  rw [renamed, hseen] at e
  split at e
  case isTrue => exact hother e.symm
  case isFalse hne =>
    rcases h with rfl | h
    · exact hne e
    · exact h (e ▸ hu)

theorem definesFunction_renameCalls {k t : Text} (hother : k ≠ name)
    (h : definesFunction (mask t) k = true) :
    definesFunction (mask (renameCalls name new t).1) k = true := by
  rw [mask_renameCalls hname hnew]
  refine definesFunction_mapCalls (spelling_renamed_text hname hnew) ?_ h
  have hseen : seenText k = k := List.map_id k
  rw [renamed, hseen, if_neg hother]

end Renames

/-- A move keeps what is idle, and the name that moved becomes so. -/
theorem idle_renameCalls {name new k t : Text} (hname : IsName name) (hnew : IsName new)
    (hk : IsName k) (hother : k ≠ new) (h : k = name ∨ Idle k t) :
    Idle k (renameCalls name new t).1 := by
  by_cases e : k = name
  · exact .inr (callsOf_renameCalls hname hnew hk hother (.inl e))
  · rcases h.resolve_left e with hdefined | hnone
    · exact .inl (definesFunction_renameCalls hname hnew e hdefined)
    · exact .inr (callsOf_renameCalls hname hnew hk hother (.inr hnone))

/-- Tables in which no name that moves is one that something moves to. -/
structure MovesApart (tables : RenameTables Text) : Prop extends PlainTables tables where
  target : "study".toList ≠ studyTarget tables
  declaration : ∀ entry ∈ tables.namespacedFunctions, "study".toList ≠ entry.2
  apart : ∀ entry ∈ tables.namespacedFunctions, ∀ other ∈ tables.namespacedFunctions,
    entry.1 ≠ other.2

theorem movesApart_shipped : MovesApart RenameTables.shipped :=
  ⟨plainTables_shipped, by decide, by decide, by decide +kernel⟩

theorem namespaceCalls_text_eq (r : Repaired) (entry : Text × Text) :
    (namespaceCalls r entry).text = (namespaceCalls ⟨r.text, []⟩ entry).text := by
  rw [namespaceCalls_eq, continueWith_text]
  rfl

section Moves

variable {tables : RenameTables Text} (h : MovesApart tables)
include h

theorem replaceStudy_gone (t : Text) :
    callsOf "study".toList (replaceStudy tables t).text = [] := by
  have hstudy : IsName "study".toList := by decide
  rcases replaceStudy_cases tables t with ⟨hnone, e⟩ | ⟨-, change, e⟩ <;> rw [e]
  · exact hnone
  · exact callsOf_renameCalls hstudy h.study hstudy h.target (.inl rfl)

theorem namespaceBuiltins_study {t : Text} (ht : callsOf "study".toList t = []) :
    callsOf "study".toList (namespaceBuiltins tables t).text = [] := by
  have hmem {entry : Text × Text} (he : entry ∈ tables.namespacedFunctions.mergeSort entryLe) :=
    List.mem_mergeSort.mp he
  refine @moves_keep (fun u => callsOf "study".toList u = []) _ (fun entry he u hu => ?_) ⟨t, []⟩ ht
  obtain ⟨hold, hnew⟩ := h.namespaced entry (hmem he)
  exact callsOf_renameCalls hold.1 hnew (by decide) (h.declaration entry (hmem he)) (.inr hu)

/-- Once every built-in function has moved no call of one is left where it was. -/
theorem namespaceBuiltins_idle (t : Text) : ∀ entry ∈ tables.namespacedFunctions,
    Idle entry.1 (namespaceBuiltins tables t).text := by
  rw [namespaceBuiltins]
  have hall : ∀ entry ∈ tables.namespacedFunctions.mergeSort entryLe,
      entry ∈ tables.namespacedFunctions := fun entry he => List.mem_mergeSort.mp he
  suffices ∀ r : Repaired, ∀ entry ∈ tables.namespacedFunctions.mergeSort entryLe,
      Idle entry.1 ((tables.namespacedFunctions.mergeSort entryLe).foldl namespaceCalls r).text from
    fun entry he => this ⟨t, []⟩ entry (List.mem_mergeSort.mpr he)
  generalize tables.namespacedFunctions.mergeSort entryLe = entries at hall
  induction entries with
  | nil => exact fun r entry he => absurd he List.not_mem_nil
  | cons first entries ih =>
    obtain ⟨hfirst, hall⟩ := List.forall_mem_cons.mp hall
    obtain ⟨hold, hnew⟩ := h.namespaced first hfirst
    refine fun r => List.forall_mem_cons.mpr ⟨?_, ih hall _⟩
    -- The first name has moved, and the moves behind it do not bring it back.
    refine @moves_keep (Idle first.1) entries (fun entry he u hu => ?_) _ ?_
    · obtain ⟨hold', hnew'⟩ := h.namespaced entry (hall entry he)
      exact idle_renameCalls hold'.1 hnew' hold.1 (h.apart first hfirst entry (hall entry he))
        (.inr hu)
    · rw [namespaceCalls_text_eq]
      rcases namespaceCalls_cases hold.1 r.text with ⟨hidle, e⟩ | ⟨-, change, e⟩ <;> rw [e]
      · exact hidle
      · exact idle_renameCalls hold.1 hnew hold.1 (h.apart first hfirst first hfirst) (.inl rfl)

end Moves

end Repair

end PineTools
