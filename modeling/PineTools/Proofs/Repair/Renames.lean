import PineTools.Proofs.Construct.Calls
import PineTools.Proofs.Scan.Places
import PineTools.Repair.Basic

namespace PineTools.Repair

open Mode

def IsName (name : Text) : Prop := name ≠ [] ∧ ∀ c ∈ name, Text.isWordOrDot c = true

/-- A name that is not shown by a hidden literal. -/
def IsPlainName (name : Text) : Prop := IsName name ∧ Cell.filler ∉ name

instance (name : Text) : Decidable (IsName name) := inferInstanceAs (Decidable (_ ∧ _))

instance (name : Text) : Decidable (IsPlainName name) := inferInstanceAs (Decidable (_ ∧ _))

theorem tame_of_isWordOrDot {c : Char} (h : Text.isWordOrDot c = true) : Tame c ∧ c ≠ '*' := by
  refine ⟨⟨?_, ?_, ?_⟩, ?_⟩
  · rintro rfl
    exact absurd h (by decide)
  · rintro rfl
    exact absurd h (by decide)
  · refine Option.eq_none_iff_forall_ne_some.mpr fun q e => ?_
    rw [Quote.ofChar?_eq_some e] at h
    cases q <;> exact absurd h (by decide)
  · rintro rfl
    exact absurd h (by decide)

theorem IsName.tame {name : Text} (h : IsName name) :
    ∀ c ∈ name, Tame c := fun c hc => (tame_of_isWordOrDot (h.2 c hc)).1

theorem IsPlainName.code {name : Text} (h : IsPlainName name) {m : Mode} {t : Text} {c : Cell}
    (hc : c ∈ cellsFrom m t) (hshown : c.masked ∈ name) : c.region = .code ∧ c.char = c.masked := by
  have hword := h.1.2 _ hshown
  apply code_of_masked hc
  · intro e
    rw [e] at hword
    exact absurd hword (by decide)
  · intro e
    rw [e] at hword
    exact absurd hword (by decide)
  · intro e
    exact h.2 (e ▸ hshown)
  · intro q e
    rw [e] at hword
    cases q <;> exact absurd hword (by decide)

variable {name : Text}

theorem advances_callOf (h : IsName name) : (callOf name : Pattern Cell Unit).Advances := by
  intro before gs v rest e
  obtain ⟨called, e, hseen, -⟩ := callOf_eq_some e
  refine ⟨called, ?_, e⟩
  rintro rfl
  exact h.1 hseen.symm

theorem callOf_apart (h : IsName name) {before : Option Char} {gs rest : List Cell} {u : Unit}
    (e : callOf name before gs = some (u, rest)) (before' : Option Char) :
    callOf name before' rest = none := by
  obtain ⟨-, -, -, gap, x, rest', hrest, hblank, hx⟩ := callOf_eq_some e
  refine Option.eq_none_iff_forall_ne_some.mpr fun r e' => ?_
  obtain ⟨u', rest''⟩ := r
  obtain ⟨called, hcalled, hseen, -⟩ := callOf_eq_some e'
  cases called with
  | nil => exact h.1 hseen.symm
  | cons g gs' =>
    have hg : Text.isWordOrDot (Glyph.seen g) = true := by
      apply h.2
      rw [← hseen]
      exact List.mem_cons_self
    rw [hrest] at hcalled
    cases gap with
    | nil =>
      rw [List.nil_append, List.cons_append, List.cons.injEq] at hcalled
      rw [← hcalled.1, hx] at hg
      exact absurd hg (by decide)
    | cons b bs =>
      rw [List.cons_append, List.cons_append, List.cons.injEq] at hcalled
      have hb := hblank b List.mem_cons_self
      rw [hcalled.1, Text.isBlank, Bool.or_eq_true, beq_iff_eq, beq_iff_eq] at hb
      rcases hb with e | e <;> rw [e] at hg <;> exact absurd hg (by decide)

def callsOf (name t : Text) : List (Match Cell Unit) := (callOf name).findAll (cells t)

def renameEdit (new : Text) (m : Match Cell Unit) : Edit := ⟨m.start, m.stop, new⟩

theorem renameCalls_eq (h : IsName name) (new t : Text) :
    renameCalls name new t =
      (Edit.splice t 0 ((callsOf name t).map (renameEdit new)), (callsOf name t).length) := by
  obtain ⟨htext, hcount⟩ :=
    (Pattern.segmented_segments (advances_callOf h) (cells t)).rebuild_eq Cell.char
      (fun _ _ => new) []
  rw [List.nil_append, cells, cellsFrom_chars, ← cells] at htext
  exact Prod.ext htext hcount

theorem ordered_renameEdits (h : IsName name) (new t : Text) :
    Edit.Ordered t.length 0 ((callsOf name t).map (renameEdit new)) := by
  have hordered := ((Pattern.segmented_segments (advances_callOf h) (cells t)).ordered
    (fun before gs v rest e => callOf_apart h e) 0 fun _ => new).1
  rw [Nat.zero_add, cells, cellsFrom_length, ← cells] at hordered
  exact hordered

/-- A name that is called lies in code, and it is written as it is shown: what follows it neither
ends the line nor lies in a literal. -/
theorem IsName.called (h : IsName name) {before : Option Char} {taken rest : List Cell} {u : Unit}
    (happ : callOf name before (taken ++ rest) = some (u, rest)) {m : Mode} {t : Text}
    {a : List Cell} (hread : cellsFrom m t = a ++ (taken ++ rest)) :
    writtenText taken = name ∧ ∀ c ∈ taken, c.region = .code ∧ Text.isWordOrDot c.char = true := by
  obtain ⟨called, e, hseen, gap, x, rest', hrest, hblank, hx⟩ := callOf_eq_some happ
  obtain rfl : taken = called := (List.append_left_inj rest).mp e
  have hword : ∀ c ∈ taken, Text.isWordOrDot c.masked = true := fun c hc =>
    h.2 _ (hseen ▸ List.mem_map_of_mem (f := Glyph.seen) hc)
  have hmem {z : Cell} (hz : z ∈ taken ++ rest) : z ∈ cellsFrom m t :=
    hread ▸ List.mem_append_right a hz
  obtain ⟨y, b, rfl, hn, hy⟩ : ∃ y b, rest = y :: b ∧ y.char ≠ '\n' ∧
      y.region.isLiteral = false := by
    cases gap with
    | nil =>
      have hcode :=
        code_of_masked (c := x) (hmem (hrest ▸ List.mem_append_right taken List.mem_cons_self))
      rw [show x.masked = '(' from hx] at hcode
      obtain ⟨hregion, hchar⟩ := hcode (by decide) (by decide) (by decide) fun q => by
        cases q <;> decide
      refine ⟨x, rest', hrest, ?_, by rw [hregion]; rfl⟩
      rw [hchar]
      decide
    | cons y gap =>
      refine ⟨y, gap ++ x :: rest', hrest, region_of_blank (hmem ?_) (hblank y List.mem_cons_self)⟩
      rw [hrest]
      exact List.mem_append_right taken List.mem_cons_self
  have hcode := code_of_name hread hword hn hy
  have hchar : ∀ c ∈ taken, c.char = c.masked := fun c hc => (Cell.masked_of_code (hcode c hc)).symm
  refine ⟨(List.map_congr_left hchar).trans hseen, fun c hc => ⟨hcode c hc, ?_⟩⟩
  rw [hchar c hc]
  exact hword c hc

theorem sound_renameEdit (h : IsName name) {new : Text} (hnew : IsName new) {t : Text}
    {m : Match Cell Unit} (hm : m ∈ callsOf name t) :
    Edit.Sound t (renameEdit new m) ∧ Edit.swap t (renameEdit new m) = ⟨name, new⟩ := by
  obtain ⟨a, rest, hcells, hstart, happ⟩ := Pattern.applies_of_mem_findAll (advances_callOf h) hm
  obtain ⟨hwritten, hcode⟩ := h.called happ hcells
  have hnewhead : new.head? ≠ some '*' :=
    fun e => (tame_of_isWordOrDot (hnew.2 _ (List.mem_of_head? e))).2 rfl
  have hstop : m.stop = a.length + m.glyphs.length := by rw [Match.stop, hstart]
  have hne : m.glyphs ≠ [] := fun e => h.1 (hwritten ▸ congrArg writtenText e)
  refine ⟨Edit.sound_of_tame hnew.1 hnew.tame hnewhead ?_ ?_, ?_⟩
  · -- Before the first character of the name.
    cases hg : m.glyphs with
    | nil => exact absurd hg hne
    | cons c cs =>
      obtain ⟨hregion, hword⟩ := hcode c (hg ▸ List.mem_cons_self)
      have hn : c.char ≠ '\n' := by
        intro e
        rw [e] at hword
        exact absurd hword (by decide)
      rw [hg] at hcells
      rw [renameEdit, hstart]
      exact bare_before_code hcells hregion hn (tame_of_isWordOrDot hword).1
  · -- Behind the last one.
    rcases List.eq_nil_or_concat m.glyphs with hg | ⟨cs, c, hg⟩
    · exact absurd hg hne
    · rw [List.concat_eq_append] at hg
      obtain ⟨hregion, hword⟩ := hcode c (hg ▸ List.mem_append_right cs (List.mem_singleton_self c))
      have hsplit : cells t = (a ++ cs) ++ c :: rest := by
        rw [hcells, hg]
        simp only [List.append_assoc, List.cons_append, List.nil_append]
      have hlen : m.stop = (a ++ cs).length + 1 := by
        rw [hstop, hg]
        simp only [List.length_append, List.length_singleton]
        omega
      rw [renameEdit, hlen, modeAt_after_tame hsplit hregion (tame_of_isWordOrDot hword).1]
      exact .inl (.inl rfl)
  · rw [Edit.swap, renameEdit, hstart, hstop, slice_stretch hcells, hwritten]

theorem renameCalls_revises (h : IsName name) {new : Text} (hnew : IsName new) (t : Text) :
    Revises .start t (renameCalls name new t).1 ((callsOf name t).map fun _ => ⟨name, new⟩) := by
  have hrev := Edit.revises_splice (ordered_renameEdits h new t) fun e he => by
    obtain ⟨m, hm, rfl⟩ := List.mem_map.mp he
    exact (sound_renameEdit h hnew hm).1
  have hswaps : ((callsOf name t).map (renameEdit new)).map (Edit.swap t) = (callsOf name t).map
      fun _ => ⟨name, new⟩ := by
    rw [List.map_map]
    exact List.map_congr_left fun m hm => (sound_renameEdit h hnew hm).2
  rw [renameCalls_eq h, ← hswaps]
  exact hrev

theorem notes_renameCalls (h : IsName name) {new : Text} (hnew : IsName new) (t : Text) :
    notes (renameCalls name new t).1 = notes t := by
  refine (renameCalls_revises h hnew t).notesFrom_eq (fun s hs => ?_) atNote_start
  obtain ⟨m, -, rfl⟩ := List.mem_map.mp hs
  rw [notes_tame hnew.tame, notes_tame h.tame]

/-- The name that takes the place of the older spelling of the indicator declaration. -/
def studyTarget (tables : RenameTables Text) : Text :=
  ((tables.declarationRenames.find? fun p => p.1 == "study".toList).map Prod.snd).getD
    "indicator".toList

/-- Tables whose names may be written into a script, and whose old names no literal shows. -/
structure PlainTables (tables : RenameTables Text) : Prop where
  study : IsName (studyTarget tables)
  namespaced : ∀ entry ∈ tables.namespacedFunctions, IsPlainName entry.1 ∧ IsName entry.2

theorem plainTables_shipped : PlainTables RenameTables.shipped := ⟨by decide, by decide⟩

/-- The shipped table lists its names in order. -/
theorem namespaceBuiltins_shipped : namespaceBuiltins RenameTables.shipped = fun t =>
    RenameTables.shipped.namespacedFunctions.foldl namespaceCalls ⟨t, []⟩ := by
  have hsorted : RenameTables.shipped.namespacedFunctions.Pairwise fun a b =>
      entryLe a b = true := by decide +kernel
  funext t
  rw [namespaceBuiltins, List.mergeSort_of_pairwise hsorted]

theorem replaceStudy_text (tables : RenameTables Text) (t : Text) :
    (replaceStudy tables t).text = t ∨
      (replaceStudy tables t).text = (renameCalls "study".toList (studyTarget tables) t).1 := by
  rw [replaceStudy]
  split
  · exact .inl rfl
  · rename_i new n _ h
    exact .inr (congrArg Prod.fst h).symm

theorem namespaceCalls_text (r : Repaired) (entry : Text × Text) :
    (namespaceCalls r entry).text = r.text ∨ (namespaceCalls r entry).text =
      (renameCalls entry.1 entry.2 r.text).1 := by
  rw [namespaceCalls]
  split
  · exact .inl rfl
  · split
    · exact .inl rfl
    · rename_i new n _ h
      exact .inr (congrArg Prod.fst h).symm

/-- What each single move keeps is kept by all of them. -/
theorem moves_keep {P : Text → Prop} {entries : List (Text × Text)}
    (h : ∀ entry ∈ entries, ∀ t, P t → P (renameCalls entry.1 entry.2 t).1) (r : Repaired)
    (hr : P r.text) : P (entries.foldl namespaceCalls r).text := by
  induction entries generalizing r with
  | nil => exact hr
  | cons entry entries ih =>
    obtain ⟨hfirst, hrest⟩ := List.forall_mem_cons.mp h
    refine ih hrest _ ?_
    rcases namespaceCalls_text r entry with e | e <;> rw [e]
    · exact hr
    · exact hfirst _ hr

/-- A property of scripts that does not suffer from a renaming of calls. -/
def KeptByRenames (P : Text → Prop) : Prop :=
  ∀ ⦃name new : Text⦄ ⦃t : Text⦄, IsName name → IsName new → P t → P (renameCalls name new t).1

theorem KeptByRenames.replaceStudy {P : Text → Prop} (hP : KeptByRenames P)
    {tables : RenameTables Text} (h : PlainTables tables) {t : Text} (ht : P t) :
    P (replaceStudy tables t).text := by
  rcases replaceStudy_text tables t with e | e
  · rwa [e]
  · rw [e]
    exact hP (by decide) h.study ht

theorem KeptByRenames.namespaceBuiltins {P : Text → Prop} (hP : KeptByRenames P)
    {tables : RenameTables Text} (h : PlainTables tables) {t : Text} (ht : P t) :
    P (namespaceBuiltins tables t).text := by
  refine moves_keep (fun entry he u hu => ?_) ⟨t, []⟩ ht
  obtain ⟨hold, hnew⟩ := h.namespaced entry (List.mem_mergeSort.mp he)
  exact hP hold.1 hnew hu

theorem keptByRenames_notes (t : Text) : KeptByRenames fun u => notes u = notes t :=
  fun _ _ _ h hnew hu => (notes_renameCalls h hnew _).trans hu

theorem notes_replaceStudy {tables : RenameTables Text} (h : PlainTables tables) (t : Text) :
    notes (replaceStudy tables t).text = notes t := (keptByRenames_notes t).replaceStudy h rfl

theorem notes_namespaceBuiltins {tables : RenameTables Text} (h : PlainTables tables) (t : Text) :
    notes (namespaceBuiltins tables t).text = notes t :=
  (keptByRenames_notes t).namespaceBuiltins h rfl

end PineTools.Repair
