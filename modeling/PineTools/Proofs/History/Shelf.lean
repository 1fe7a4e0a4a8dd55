import Mathlib.Data.List.Nodup
import PineTools.Proofs.Files.Writes
import PineTools.Proofs.History.Instants
import PineTools.Proofs.History.Records

/-! One directory of a store. It holds two files for each record that is kept, and perhaps source
files whose metadata could not be written; loading it gives the kept records in the order of their
instants. -/
namespace PineTools.History

open Files

def sourceName (t : Int) : Text := fileStem t ++ sourceEnding

def metadataName (t : Int) : Text := fileStem t ++ metadataEnding

section Names

variable {t t' : Int} {name : Text}

theorem sourceName_injective (h : isDated t = true) (h' : isDated t' = true)
    (heq : sourceName t = sourceName t') : t = t' :=
  instantText_injective h h' (List.append_cancel_right heq)

theorem metadataName_injective (h : isDated t = true) (h' : isDated t' = true)
    (heq : metadataName t = metadataName t') : t = t' :=
  instantText_injective h h' (List.append_cancel_right heq)

theorem sourceName_lt (h : isDated t = true) (h' : isDated t' = true) (hlt : t < t') :
    sourceName t < sourceName t' :=
  Calendar.append_lt_append (instantText_length h h' _ _) (instantText_lt h h' hlt _ _) _ _

/-- File names sort chronologically. The name of a record is its time stamp with other signs, and of
two dated instants the earlier one has the smaller name, the smaller time stamp and the smaller
source file, while names of different instants differ whatever their endings. -/
theorem names_sort_chronologically (h : isDated t = true) (h' : isDated t' = true) :
    fileStem t = (timestamp t).map hyphenated ∧ (t < t' ↔ fileStem t < fileStem t') ∧
    (t < t' ↔ timestamp t < timestamp t') ∧
      (t < t' ↔ sourceName t < sourceName t') ∧
      (t ≠ t' → ∀ ending ending', fileStem t ++ ending ≠ fileStem t' ++ ending') := by
  refine ⟨fileStem_eq_map t, instantText_lt_iff h h' _ _, instantText_lt_iff h h' _ _,
    lt_iff_of_growing sourceName_lt h h', ?_⟩
  intro hne ending ending' heq
  exact hne (instantText_injective h h' (List.append_inj_left heq (instantText_length h h' _ _)))

/-- The last microsecond of a leap day and the next one. -/
theorem names_sort_chronologically_leap :
    let t : Int := 1709251199999999
    let t' : Int := 1709251200000000
    isDated t = true ∧ isDated t' = true ∧ fileStem t = "2024-02-29T23-59-59-999999+00-00".toList ∧
      fileStem t' = "2024-03-01T00-00-00-000000+00-00".toList ∧ fileStem t < fileStem t' ∧
      timestamp t < timestamp t' := by
  intro t t'
  have h : isDated t = true ∧ isDated t' = true := by decide
  obtain ⟨-, hstem, hstamp, -⟩ := names_sort_chronologically h.1 h.2
  exact ⟨h.1, h.2, by
    decide +kernel, by decide +kernel, hstem.mp (by decide), hstamp.mp (by decide)⟩

/-- Names with endings that differ in the last character differ. -/
theorem append_ne_append {a b e e' : Text} {c c' : Char} (he : e.getLast? = some c)
    (he' : e'.getLast? = some c') (hne : c ≠ c') :
    a ++ e ≠ b ++ e' := by
  intro h
  have hlast := congrArg List.getLast? h
  rw [List.getLast?_append, List.getLast?_append, he, he'] at hlast
  exact hne (Option.some.inj hlast)

theorem isSuffixOf_sourceEnding :
    sourceEnding.isSuffixOf name = true ↔ ∃ stem, name = stem ++ sourceEnding := by
  rw [List.isSuffixOf_iff_suffix]
  exact ⟨fun ⟨stem, h⟩ => ⟨stem, h.symm⟩, fun ⟨stem, h⟩ => ⟨stem, h.symm⟩⟩

theorem source_ne_metadata (a b : Text) : a ++ sourceEnding ≠ b ++ metadataEnding :=
  @append_ne_append _ _ _ _ 'c' 'n' (by decide) (by decide) (by decide)

theorem source_ne_temporary (a b : Text) : a ++ sourceEnding ≠ b ++ Tree.temporaryEnding :=
  @append_ne_append _ _ _ _ 'c' 'p' (by decide) (by decide) (by decide)

theorem metadata_ne_temporary (a b : Text) : a ++ metadataEnding ≠ b ++ Tree.temporaryEnding :=
  @append_ne_append _ _ _ _ 'n' 'p' (by decide) (by decide) (by decide)

end Names

/-- What a directory holds: the two files of each record that is kept, with its instant, and no
metadata of other instants. -/
structure Shelf (tree : Tree) (dir : Path) (kept : List (Int × Record)) : Prop where
  distinct : tree.Distinct dir
  /-- Source files are named after dated instants. -/
  sources : ∀ stem, tree.hasEntry (dir.child (stem ++ sourceEnding)) = true → ∃ t, isDated t =
    true ∧ stem = fileStem t
  source : ∀ e ∈ kept, isDated e.1 = true ∧
    tree.node? (dir.child (sourceName e.1)) = some (.file (Text.encodeUtf8 e.2.content))
  metadata : ∀ e ∈ kept, tree.node? (dir.child (metadataName e.1)) =
    some (.file (Text.encodeUtf8 e.2.metadataText))
  others : ∀ t, isDated t = true → t ∉ kept.map Prod.fst →
    tree.node? (dir.child (metadataName t)) = none
  instants : (kept.map Prod.fst).Nodup
  directory : kept ≠ [] → tree.isDirectory dir = true

section Loading

variable {tree : Tree} {dir : Path} {kept : List (Int × Record)}

def keptAt? (kept : List (Int × Record)) (t : Int) :
    Option (Int × Record) := kept.find? fun e => e.1 == t

theorem keptAt?_eq_none {t : Int} : keptAt? kept t = none ↔ t ∉ kept.map Prod.fst := by
  rw [keptAt?, List.find?_eq_none, List.mem_map]
  constructor
  · rintro h ⟨e, he, rfl⟩
    exact h e he (beq_self_eq_true e.1)
  · exact fun h e he heq => h ⟨e, he, beq_iff_eq.mp heq⟩

theorem keptAt?_eq_some {t : Int} {e : Int × Record} (h : keptAt? kept t = some e) :
    e ∈ kept ∧ e.1 = t := by
  have heq := List.find?_some h
  exact ⟨List.mem_of_find?_eq_some h, beq_iff_eq.mp heq⟩

theorem keptAt?_mem {e : Int × Record} (hinstants : (kept.map Prod.fst).Nodup) (he : e ∈ kept) :
    keptAt? kept e.1 = some e := by
  cases h : keptAt? kept e.1 with
  | none => exact absurd (List.mem_map_of_mem he) (keptAt?_eq_none.mp h)
  | some e' =>
    obtain ⟨he', heq⟩ := keptAt?_eq_some h
    exact congrArg some (List.inj_on_of_nodup_map hinstants he' he heq)

theorem Shelf.loadEntry (h : Shelf tree dir kept) {t : Int} (ht : isDated t = true) :
    History.loadEntry .plain tree dir (sourceName t) = .ok ((keptAt? kept t).map Prod.snd) := by
  have hstem : (sourceName t).take ((sourceName t).length - sourceEnding.length) = fileStem t := by
    rw [sourceName, List.length_append, Nat.add_sub_cancel, List.take_left]
  have hname : fileStem t ++ metadataEnding = metadataName t := rfl
  rw [History.loadEntry]
  simp only [hstem, hname, Host.plain_bars, Host.plain_nesting, Host.plain_reading]
  cases hkept : keptAt? kept t with
  | none =>
    obtain ⟨e, he⟩ := Tree.read_never_none (h.others t ht (keptAt?_eq_none.mp hkept))
    rw [he]
    rfl
  | some e =>
    obtain ⟨he, rfl⟩ := keptAt?_eq_some hkept
    rw [Tree.read_never_file (h.metadata e he)]
    simp only [Text.decodeUtf8_encodeUtf8, parse_metadataText (Nat.succ_ne_zero 988),
      Tree.read_never_file (h.source e he).2, ofMetadata?_metadata]
    rfl

theorem loadEntries_eq (h : Shelf tree dir kept) {ts : List Int}
    (hts : ∀ t ∈ ts, isDated t = true) :
    loadEntries .plain tree dir (ts.map sourceName) =
      .ok ((ts.filterMap (keptAt? kept)).map Prod.snd) := by
  induction ts with
  | nil => rfl
  | cons t ts ih =>
    rw [List.map_cons, loadEntries, h.loadEntry (hts t List.mem_cons_self), ih fun u hu =>
      hts u (List.mem_cons_of_mem t hu), List.filterMap_cons]
    cases keptAt? kept t <;> rfl

theorem exists_instants {names : List Text} (h : ∀ name ∈ names, ∃ t, isDated t = true ∧
    name = sourceName t) :
    ∃ ts : List Int, names = ts.map sourceName ∧ ∀ t ∈ ts, isDated t = true := by
  induction names with
  | nil => exact ⟨[], rfl, fun _ ht => absurd ht List.not_mem_nil⟩
  | cons name names ih =>
    obtain ⟨t, ht, rfl⟩ := h name List.mem_cons_self
    obtain ⟨ts, rfl, hts⟩ := ih fun name hname => h name (List.mem_cons_of_mem _ hname)
    refine ⟨t :: ts, rfl, fun u hu => ?_⟩
    rcases List.mem_cons.mp hu with rfl | hu
    · exact ht
    · exact hts u hu

/-- The source files that are listed in a directory are those of some instants in order. -/
theorem Shelf.listing (h : Shelf tree dir kept) :
    ∃ ts : List Int, ((tree.entries dir).filter fun n => sourceEnding.isSuffixOf n) =
      ts.map sourceName ∧
      (∀ t ∈ ts, isDated t = true) ∧ ts.Pairwise (· < ·) := by
  have hinstants : ∀ name ∈ (tree.entries dir).filter fun n => sourceEnding.isSuffixOf n,
      ∃ t, isDated t = true ∧ name = sourceName t := by
    intro name hname
    obtain ⟨hentry, hending⟩ := List.mem_filter.mp hname
    obtain ⟨stem, rfl⟩ := isSuffixOf_sourceEnding.mp hending
    obtain ⟨t, ht, rfl⟩ := h.sources stem (Tree.mem_entries.mp hentry)
    exact ⟨t, ht, rfl⟩
  obtain ⟨ts, hnames, hts⟩ := exists_instants hinstants
  refine ⟨ts, hnames, hts, ?_⟩
  have hsorted : (ts.map sourceName).Pairwise (· < ·) := by
    rw [← hnames]
    exact (Tree.entries_sorted h.distinct).sublist List.filter_sublist
  refine (List.pairwise_map.mp hsorted).imp_of_mem fun {t u} ht hu htu => ?_
  rcases Int.lt_trichotomy t u with hlt | rfl | hlt
  · exact hlt
  · exact absurd htu (List.lt_irrefl _)
  · exact absurd (List.lt_trans htu (sourceName_lt (hts u hu) (hts t ht) hlt)) (List.lt_irrefl _)

theorem Shelf.load (h : Shelf tree dir kept) : ∃ sorted : List (Int × Record), sorted.Perm kept ∧
    sorted.Pairwise (·.1 < ·.1) ∧ loadDirectory .plain tree dir = .ok (sorted.map Prod.snd) := by
  by_cases hdir : tree.node? dir = some .directory
  case neg =>
    have hnone : kept = [] :=
      Decidable.not_not.mp fun hne => hdir (Tree.isDirectory_iff.mp (h.directory hne))
    refine ⟨[], by rw [hnone], .nil, ?_⟩
    rw [loadDirectory, Host.plain_bars, Tree.look_never]
    split
    · next e => cases e
    · next e => exact absurd (Except.ok.inj e) hdir
    · rfl
  case pos =>
    obtain ⟨ts, hnames, hts, hsorted⟩ := h.listing
    have hpairwise : (ts.filterMap (keptAt? kept)).Pairwise (·.1 < ·.1) := by
      refine List.pairwise_filterMap.mpr (hsorted.imp fun htu e he f hf => ?_)
      rwa [(keptAt?_eq_some he).2, (keptAt?_eq_some hf).2]
    refine ⟨ts.filterMap (keptAt? kept), ?_, hpairwise, ?_⟩
    · have hnodup : (ts.filterMap (keptAt? kept)).Nodup := hpairwise.imp fun hlt heq => by
        rw [heq] at hlt
        exact absurd hlt (Int.lt_irrefl _)
      refine (List.perm_ext_iff_of_nodup hnodup (List.Nodup.of_map _ h.instants)).mpr fun e => ?_
      rw [List.mem_filterMap]
      refine ⟨fun ⟨t, _, ht⟩ => (keptAt?_eq_some ht).1, fun he =>
        ⟨e.1, ?_, keptAt?_mem h.instants he⟩⟩
      obtain ⟨hdated, hnode⟩ := h.source e he
      have hname : sourceName e.1 ∈ (tree.entries dir).filter fun n => sourceEnding.isSuffixOf n :=
        List.mem_filter.mpr ⟨Tree.mem_entries.mpr (Tree.hasEntry_iff.mpr ⟨_, hnode⟩),
          isSuffixOf_sourceEnding.mpr ⟨_, rfl⟩⟩
      rw [hnames] at hname
      obtain ⟨t, ht, heq⟩ := List.mem_map.mp hname
      rwa [← sourceName_injective (hts t ht) hdated heq]
    · rw [loadDirectory, Host.plain_bars, Tree.look_never, hdir, hnames]
      exact loadEntries_eq h hts

end Loading

section Writing

variable {tree tree' : Tree} {dir : Path} {kept : List (Int × Record)}
    {touched : Path → Prop} {t : Int}

theorem Shelf.empty (dir : Path) (h : ∀ name, tree.hasEntry (dir.child name) = false)
    (hdistinct : tree.Distinct dir) : Shelf tree dir [] := by
  have hnone (name : Text) : tree.node? (dir.child name) = none :=
    Option.isSome_eq_false_iff.mp (h name) |> Option.isNone_iff_eq_none.mp
  refine ⟨hdistinct, fun stem hstem => ?_, fun _ he => absurd he List.not_mem_nil, fun _ he =>
    absurd he List.not_mem_nil, fun t _ _ => hnone _, List.nodup_nil, fun hne => absurd rfl hne⟩
  rw [h] at hstem
  cases hstem

/-- What is kept in a directory does not depend on what happens elsewhere, nor on temporary files.
-/
theorem Shelf.keeps (h : Shelf tree dir kept) (hk : Tree.Keeps touched tree tree')
    (hnames : ∀ name, touched (dir.child name) → ∃ stem, name = stem ++ Tree.temporaryEnding)
    (hdir : tree.isDirectory dir = true → tree'.isDirectory dir = true) : Shelf tree' dir kept := by
  have hsource (stem : Text) : ¬ touched (dir.child (stem ++ sourceEnding)) := fun htouched => by
    obtain ⟨stem', heq⟩ := hnames _ htouched
    exact source_ne_temporary _ _ heq
  have hmetadata (stem : Text) : ¬ touched (dir.child (stem ++ metadataEnding)) :=
    fun htouched => by
    obtain ⟨stem', heq⟩ := hnames _ htouched
    exact metadata_ne_temporary _ _ heq
  refine ⟨hk.distinct dir h.distinct, fun stem hstem => ?_, fun e he => ⟨(h.source e he).1, ?_⟩,
    fun e he => ?_, fun t ht hnew => ?_, h.instants, fun hne => hdir (h.directory hne)⟩
  · rw [hk.hasEntry (hsource stem)] at hstem
    exact h.sources stem hstem
  · rw [sourceName, hk.node _ (hsource _)]
    exact (h.source e he).2
  · rw [metadataName, hk.node _ (hmetadata _)]
    exact h.metadata e he
  · rw [metadataName, hk.node _ (hmetadata _)]
    exact h.others t ht hnew

variable {temporary : Text}

/-- A source file on its own shows nothing. -/
theorem Shelf.addSource (h : Shelf tree dir kept) (ht : isDated t = true)
    (hfree : tree.node? (dir.child (sourceName t)) = none)
    (hk : Tree.Keeps (fun q => q = dir.child (temporary ++ Tree.temporaryEnding) ∨
    q = dir.child (sourceName t)) tree tree') :
    Shelf tree' dir kept := by
  have hsource {stem : Text} (hne : stem ≠ fileStem t) :
    tree'.node? (dir.child (stem ++ sourceEnding)) =
      tree.node? (dir.child (stem ++ sourceEnding)) := by
    refine hk.node _ fun htouched => ?_
    rcases htouched with heq | heq
    · exact source_ne_temporary _ _ (Path.child_inj.mp heq)
    · exact hne (List.append_cancel_right (Path.child_inj.mp heq))
  have hmetadata (stem : Text) : tree'.node? (dir.child (stem ++ metadataEnding)) =
      tree.node? (dir.child (stem ++ metadataEnding)) := by
    refine hk.node _ fun htouched => ?_
    rcases htouched with heq | heq
    · exact metadata_ne_temporary _ _ (Path.child_inj.mp heq)
    · exact source_ne_metadata _ _ (Path.child_inj.mp heq).symm
  refine ⟨hk.distinct dir h.distinct, fun stem hstem => ?_, fun e he => ⟨(h.source e he).1, ?_⟩,
    fun e he => ?_, fun u hu hnew => ?_, h.instants, fun hne => ?_⟩
  · by_cases hstem' : stem = fileStem t
    · exact ⟨t, ht, hstem'⟩
    · rw [Tree.hasEntry, hsource hstem', ← Tree.hasEntry] at hstem
      exact h.sources stem hstem
  · have hnode := (h.source e he).2
    have hne : fileStem e.1 ≠ fileStem t := fun heq => by
      rw [sourceName, heq, ← sourceName, hfree] at hnode
      cases hnode
    rw [sourceName, hsource hne]
    exact hnode
  · exact (hmetadata _).trans (h.metadata e he)
  · exact (hmetadata _).trans (h.others u hu hnew)
  · rw [hk.isDirectory (Path.ne_children dir _ _)]
    exact h.directory hne

theorem Shelf.addMetadata (h : Shelf tree dir kept) (ht : isDated t = true)
    (hnew : t ∉ kept.map Prod.fst) {r : Record} (hcontent : tree.node? (dir.child (sourceName t)) =
      some (.file (Text.encodeUtf8 r.content)))
    (hk : Tree.Keeps (fun q => q = dir.child (temporary ++ Tree.temporaryEnding) ∨
      q = dir.child (metadataName t)) tree tree')
    (hnode : tree'.node? (dir.child (metadataName t)) =
      some (.file (Text.encodeUtf8 r.metadataText)))
    (hdir : tree.isDirectory dir = true) : Shelf tree' dir (kept ++ [(t, r)]) := by
  have hsource (stem : Text) : tree'.node? (dir.child (stem ++ sourceEnding)) =
      tree.node? (dir.child (stem ++ sourceEnding)) := by
    refine hk.node _ fun htouched => ?_
    rcases htouched with heq | heq
    · exact source_ne_temporary _ _ (Path.child_inj.mp heq)
    · exact source_ne_metadata _ _ (Path.child_inj.mp heq)
  have hmetadata {u : Int} (hu : isDated u = true) (hne : u ≠ t) :
    tree'.node? (dir.child (metadataName u)) =
      tree.node? (dir.child (metadataName u)) := by
    refine hk.node _ fun htouched => ?_
    rcases htouched with heq | heq
    · exact metadata_ne_temporary _ _ (Path.child_inj.mp heq)
    · exact hne (metadataName_injective hu ht (Path.child_inj.mp heq))
  have hdir' : tree'.isDirectory dir = true := by
    rw [hk.isDirectory (Path.ne_children dir _ _)]
    exact hdir
  refine ⟨hk.distinct dir h.distinct, fun stem hstem => ?_, fun e he => ?_, fun e he => ?_,
    fun u hu hu' => ?_, ?_, fun _ => hdir'⟩
  · rw [Tree.hasEntry, hsource stem, ← Tree.hasEntry] at hstem
    exact h.sources stem hstem
  · rcases List.mem_append.mp he with he | he
    · exact ⟨(h.source e he).1, (hsource _).trans (h.source e he).2⟩
    · cases List.mem_singleton.mp he
      exact ⟨ht, (hsource _).trans hcontent⟩
  · rcases List.mem_append.mp he with he | he
    · refine (hmetadata (h.source e he).1 fun heq => hnew ?_).trans (h.metadata e he)
      rw [← heq]
      exact List.mem_map_of_mem he
    · cases List.mem_singleton.mp he
      exact hnode
  · rw [List.map_append, List.mem_append, not_or] at hu'
    rw [hmetadata hu fun heq => hu'.2 (List.mem_singleton.mpr heq)]
    exact h.others u hu hu'.1
  · rw [List.map_append, List.nodup_append]
    refine ⟨h.instants, List.nodup_singleton t, fun a ha b hb heq => hnew ?_⟩
    have hb : b = t := List.mem_singleton.mp hb
    rwa [← hb, ← heq]

end Writing

end PineTools.History
