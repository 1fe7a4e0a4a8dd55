import Mathlib.Data.List.Perm.Subperm
import PineTools.Proofs.History.Shelf

/-! One save. It takes the first free instant from the reading of the clock on; it may fail between
its two files, and then shows nothing; and it touches no directory but its own. -/
namespace PineTools.History

open Files

variable {κ : Type}

def Taken (tree : Tree) (dir : Path) (t : Int) : Prop :=
  tree.hasEntry (dir.child (sourceName t)) = true

section Free

variable {bars : Bars} {tree : Tree} {dir : Path} {fuel : Nat} {t u : Int}

theorem taken_of_look {n : Node} (h : tree.look bars (dir.child (sourceName t)) = .ok (some n)) :
    Taken tree dir t :=
  Tree.hasEntry_iff.mpr ⟨n, (Tree.look_eq_ok_iff.mp h).2⟩

theorem not_taken_of_look (h : tree.look bars (dir.child (sourceName t)) = .ok none) :
    ¬ Taken tree dir t := by
  rw [Taken, Tree.hasEntry, (Tree.look_eq_ok_iff.mp h).2]
  exact Bool.false_ne_true

/-- What holds of all instants from one on, up to the first that is looked at next, holds of it too.
-/
theorem forall_between_succ {P : Int → Prop} (ht : P t) (h : ∀ v, t + 1 ≤ v → v < u → P v) :
    ∀ v, t ≤ v → v < u → P v := by
  intro v hv hvu
  rcases Int.lt_or_eq_of_le hv with hv | rfl
  · exact h v hv hvu
  · exact ht

theorem freeInstant_eq_ok (h : freeInstant bars tree dir fuel t = .ok u) :
    t ≤ u ∧ isDated u = true ∧ ¬ Taken tree dir u ∧ ∀ v, t ≤ v → v < u → Taken tree dir v := by
  induction fuel generalizing t with
  | zero => cases h
  | succ fuel ih =>
    rw [freeInstant] at h
    split at h
    · cases h
    · next hdated =>
      split at h
      · cases h
      · next n htaken =>
        obtain ⟨hle, hdated', hfree, hbefore⟩ := ih h
        exact ⟨by omega, hdated', hfree, forall_between_succ (taken_of_look htaken) hbefore⟩
      · next hfree =>
        cases h
        exact ⟨Int.le_refl _, by simpa using hdated, not_taken_of_look hfree,
          fun v hv hvu => absurd hvu (Int.not_lt.mpr hv)⟩

theorem freeInstant_undated (h : freeInstant bars tree dir fuel t = .error .undated) :
    (∃ v, t ≤ v ∧ isDated v = false ∧ ∀ w, t ≤ w → w < v → Taken tree dir w) ∨
      ∀ n : Nat, n < fuel → isDated (t + n) = true ∧ Taken tree dir (t + n) := by
  induction fuel generalizing t with
  | zero => exact .inr fun n hn => absurd hn (Nat.not_lt_zero n)
  | succ fuel ih =>
    rw [freeInstant] at h
    split at h
    · next hdated =>
      exact .inl ⟨t, Int.le_refl t, by simpa using hdated,
        fun w hw hwt => absurd hwt (Int.not_lt.mpr hw)⟩
    · next hdated =>
      split at h
      · cases h
      · next n htaken =>
        have htaken := taken_of_look htaken
        rcases ih h with ⟨v, hv, hundated, hbefore⟩ | hall
        · exact .inl ⟨v, by omega, hundated, forall_between_succ htaken hbefore⟩
        · refine .inr fun n hn => ?_
          cases n with
          | zero =>
            refine ⟨by simpa using hdated, ?_⟩
            change Taken tree dir (t + 0)
            rwa [Int.add_zero]
          | succ n =>
            have hn' := hall n (by omega)
            rwa [Int.add_assoc, Int.add_comm 1] at hn'
      · cases h

/-- The search has steps enough: if it finds nothing, no dated instant from there on is free. -/
theorem taken_of_freeInstant_undated
    (h : freeInstant bars tree dir (tree.nodes.length + 1) t = .error .undated)
    (ht : isDated t = true) (hu : isDated u = true) (htu : t ≤ u) : Taken tree dir u := by
  rcases freeInstant_undated h with ⟨v, hv, hundated, hbefore⟩ | hall
  · refine hbefore u htu (Int.lt_of_not_ge fun hvu => ?_)
    have hdated : isDated v = true := by
      rw [isDated_iff] at ht hu ⊢
      omega
    rw [hdated] at hundated
    cases hundated
  · -- More instants than there are nodes would each have a source file of their own.
    exfalso
    have hpaths : ((List.range (tree.nodes.length + 1)).map
        fun n : Nat => dir.child (sourceName (t + n))).Nodup := by
      refine List.pairwise_map.mpr (List.Pairwise.imp_of_mem ?_ List.nodup_range)
      intro m n hm hn hne heq
      have hm := (hall m (List.mem_range.mp hm)).1
      have hn := (hall n (List.mem_range.mp hn)).1
      have := sourceName_injective hm hn (Path.child_inj.mp heq)
      omega
    have hsubset : ((List.range (tree.nodes.length + 1)).map
        fun n : Nat => dir.child (sourceName (t + n))) ⊆ tree.nodes.map Prod.fst := by
      intro p hp
      obtain ⟨n, hn, rfl⟩ := List.mem_map.mp hp
      have htaken := (hall n (List.mem_range.mp hn)).2
      obtain ⟨e, he, heq⟩ := List.mem_map.mp (Tree.hasEntry_child.mp htaken)
      exact List.mem_map.mpr ⟨e, (List.mem_filter.mp he).1, heq⟩
    have hlength := (List.subperm_of_subset hpaths hsubset).length_le
    rw [List.length_map, List.length_range, List.length_map] at hlength
    omega

end Free

theorem taken_keeps {touched : Path → Prop} {tree tree' : Tree} {dir : Path} {u : Int}
    (hk : Tree.Keeps touched tree tree') (hu : ¬ touched (dir.child (sourceName u))) :
    Taken tree' dir u ↔ Taken tree dir u := by
  rw [Taken, Taken, hk.hasEntry hu]

section Record

variable {s : Store κ} {tree tree' : Tree} {dir : Path} {t : Int} {r : Record} {name : Text}

theorem failed_write (hk : Tree.Keeps (· = dir.child (name ++ Tree.temporaryEnding)) tree tree') :
    (∀ u, Taken tree' dir u ↔ Taken tree dir u) ∧ ∀ kept, Shelf tree dir kept →
    Shelf tree' dir kept := by
  refine ⟨fun u => taken_keeps hk fun heq => source_ne_temporary _ _ (Path.child_inj.mp heq),
    fun kept h => ?_⟩
  refine h.keeps hk (fun name' heq => ⟨name, Path.child_inj.mp heq⟩) fun hdir => ?_
  rwa [hk.isDirectory fun heq => Path.child_ne_self _ _ heq.symm]

/-- The source file that is written takes its instant. -/
theorem taken_source (ht : isDated t = true)
    (hk : Tree.Keeps (fun q => q = dir.child (name ++ Tree.temporaryEnding) ∨
      q = dir.child (sourceName t)) tree tree')
    (hnode : tree'.hasEntry (dir.child (sourceName t)) = true) (u : Int) (hu : isDated u = true) :
    Taken tree' dir u ↔ Taken tree dir u ∨ u = t := by
  by_cases hut : u = t
  · rw [hut]
    exact iff_of_true hnode (.inr rfl)
  · rw [taken_keeps hk, or_iff_left hut]
    rintro (heq | heq)
    · exact source_ne_temporary _ _ (Path.child_inj.mp heq)
    · exact hut (sourceName_injective hu ht (Path.child_inj.mp heq))

theorem taken_metadata {tree tree' : Tree}
    (hk : Tree.Keeps (fun q => q = dir.child (name ++ Tree.temporaryEnding) ∨
      q = dir.child (metadataName t)) tree tree') (u : Int) :
    Taken tree' dir u ↔ Taken tree dir u := by
  refine taken_keeps hk ?_
  rintro (heq | heq)
  · exact source_ne_temporary _ _ (Path.child_inj.mp heq)
  · exact source_ne_metadata _ _ (Path.child_inj.mp heq)

/-- Only the file system makes the files of a record fail. -/
theorem writeRecord_outcome (s : Store κ) (dir : Path) (stem : Text) (r : Record) :
    (∃ e s', s.writeRecord dir stem r = (.error (.file e), s')) ∨
      ∃ s', s.writeRecord dir stem r = (.ok (), s') := by
  rw [Store.writeRecord]
  split
  · exact .inl ⟨_, _, rfl⟩
  · split
    · exact .inl ⟨_, _, rfl⟩
    · exact .inr ⟨_, rfl⟩

/-- Writing the two files of a record touches their directory only. Unless both are written nothing
more is shown. -/
theorem writeRecord_cases (ht : isDated t = true) (hfree : ¬ Taken s.tree dir t)
    (hdir : s.tree.isDirectory dir = true) (r : Record) :
    ∃ tree' written, Tree.Keeps (fun q => ∃ name, q = dir.child name) s.tree tree' ∧
    (written = none ∨ written = some t) ∧
      (∀ u, isDated u = true → (Taken tree' dir u ↔ Taken s.tree dir u ∨ written = some u)) ∧
      ((∃ e, s.writeRecord dir (fileStem t) r = (.error e, { s with tree := tree' }) ∧
          ∀ kept, Shelf s.tree dir kept → Shelf tree' dir kept) ∨
        (s.writeRecord dir (fileStem t) r = (.ok (), { s with tree := tree' }) ∧ written = some t ∧
          ∀ kept, Shelf s.tree dir kept → Shelf tree' dir (kept ++ [(t, r)]))) := by
  have hnone : s.tree.node? (dir.child (sourceName t)) = none := by
    rwa [Taken, Bool.not_eq_true, Tree.hasEntry, Option.isSome_eq_false_iff,
      Option.isNone_iff_eq_none] at hfree
  rw [Store.writeRecord]
  rcases Tree.writeAtomic_cases s.host.bars s.tree dir (fileStem t ++ sourceEnding)
    (Text.encodeUtf8 r.content) with
    ⟨e, tree', hwrite, hk⟩ | ⟨tree₁, hwrite, hcontent, hk₁⟩
  · obtain ⟨htaken, hshelf⟩ := failed_write hk
    have hnowhere (u : Int) : none ≠ some u := (Option.some_ne_none u).symm
    rw [hwrite]
    exact ⟨tree', none, hk.mono fun q hq => ⟨_, hq⟩, .inl rfl, fun u _ =>
      (htaken u).trans (or_iff_left (hnowhere u)).symm, .inl ⟨_, rfl, hshelf⟩⟩
  · have htouched₁ := hk₁.mono fun q (hq : _ ∨ _) =>
      hq.elim (fun h => (⟨_, h⟩ : ∃ name, q = dir.child name)) fun h => ⟨_, h⟩
    have htaken₁ := taken_source ht hk₁ (Tree.hasEntry_iff.mpr ⟨_, hcontent⟩)
    have hsome (u : Int) : u = t ↔ some t = some u := by rw [Option.some.injEq, eq_comm]
    rw [hwrite]
    dsimp only
    rcases Tree.writeAtomic_cases s.host.bars tree₁ dir (fileStem t ++ metadataEnding)
      (Text.encodeUtf8 r.metadataText) with
      ⟨e, tree', hwrite', hk⟩ | ⟨tree', hwrite', hmetadata, hk⟩
    · obtain ⟨htaken, hshelf⟩ := failed_write hk
      rw [hwrite']
      exact ⟨tree', some t, htouched₁.trans (hk.mono fun q hq => ⟨_, hq⟩), .inr rfl,
        fun u hu => (htaken u).trans ((htaken₁ u hu).trans (or_congr_right (hsome u))),
        .inl ⟨_, rfl, fun kept h => hshelf kept (h.addSource ht hnone hk₁)⟩⟩
    · rw [hwrite']
      refine ⟨tree', some t, htouched₁.trans (hk.mono fun q hq => hq.elim (fun h => ⟨_, h⟩) fun h =>
        ⟨_, h⟩), .inr rfl, fun u hu => (taken_metadata hk u).trans
          ((htaken₁ u hu).trans (or_congr_right (hsome u))),
        .inr ⟨rfl, rfl, fun kept h => ?_⟩⟩
      have hnew : t ∉ kept.map Prod.fst := fun hmem => by
        obtain ⟨e, he, heq⟩ := List.mem_map.mp hmem
        have hnode := (h.source e he).2
        rw [heq, hnone] at hnode
        cases hnode
      have hdir₁ : tree₁.isDirectory dir = true := by
        rwa [hk₁.isDirectory (Path.ne_children dir _ _)]
      exact (h.addSource ht hnone hk₁).addMetadata ht hnew hcontent hk hmetadata hdir₁

end Record

section Save

def Store.shelf (s : Store κ) (id : Text) : Path := s.directory.child id

/-- Making the directory of an identifier touches nothing inside the directories of the store. -/
theorem not_touched_above (directory : Path) (id id' name : Text) :
    (directory.child id').child name ∉ (directory.child id).ancestors ++ [directory.child id] := by
  have hlength : ((directory.child id').child name).names.length =
      (directory.child id).names.length + 1 := by simp [Path.child]
  intro h
  rcases List.mem_append.mp h with h | h
  · have := Path.length_ancestors h
    omega
  · rw [List.mem_singleton.mp h] at hlength
    omega

theorem child_child_inj {directory : Path} {id id' name name' : Text}
    (h : (directory.child id').child name' = (directory.child id).child name) : id' = id := by
  have hparents := congrArg Path.parent h
  simpa [Path.parent, Path.child] using hparents

theorem remember_eq (s : Store κ) (id : Text) (r : Record) :
    s.remember id r = { s with cache := (s.remember id r).cache } := by
  rw [Store.remember]
  split <;> rfl

theorem remember_cache (s : Store κ) (tree : Tree) (clock : κ) (id : Text) (r : Record) :
    (Store.remember { s with tree, clock } id r).cache = (s.remember id r).cache := by
  rw [Store.remember, Store.remember]
  split <;> rfl

section Made

variable {s : Store κ} {tree tree' : Tree} {id : Text}
  (hmade : Tree.Keeps (· ∈ (s.shelf id).ancestors ++ [s.shelf id]) s.tree tree)
  (hstay : ∀ q, s.tree.isDirectory q = true → tree.isDirectory q = true)
include hmade

theorem taken_made (id' : Text) (u : Int) :
    Taken tree (s.shelf id') u ↔ Taken s.tree (s.shelf id') u :=
  taken_keeps hmade (not_touched_above _ _ _ _)

include hstay

theorem Shelf.made {id' : Text} {kept : List (Int × Record)} (h : Shelf s.tree (s.shelf id') kept) :
    Shelf tree (s.shelf id') kept := by
  exact h.keeps hmade (fun name htouched => absurd htouched (not_touched_above _ _ _ _)) (hstay _)

omit hmade hstay in
theorem Shelf.elsewhere (hk : Tree.Keeps (fun q => ∃ name, q = (s.shelf id).child name) tree tree')
    {id' : Text} (hne : id' ≠ id) {kept : List (Int × Record)} (h : Shelf tree (s.shelf id') kept) :
    Shelf tree' (s.shelf id') kept := by
  refine h.keeps hk (fun name' ⟨name, heq⟩ => absurd (child_child_inj heq) hne) fun hdir' => ?_
  rw [hk.isDirectory]
  · exact hdir'
  · rintro ⟨name, heq⟩
    have hlength := congrArg (fun p : Path => p.names.length) heq
    simp [Store.shelf, Path.child] at hlength

end Made

variable [Clock κ Int]

/-- What a save does to a store, whether or not it succeeds. It may read the clock once, and then
may take the first free instant of its own directory. -/
structure Attempt (s s' : Store κ) (id : Text) (taken : Option Int) : Prop where
  directory : s'.directory = s.directory
  host : s'.host = s.host
  caching : s'.cacheEnabled = s.cacheEnabled
  clock : s'.clock = s.clock ∨ s'.clock = (Clock.read s.clock).2
  takes : ∀ id' u, isDated u = true →
    (Taken s'.tree (s.shelf id') u ↔ Taken s.tree (s.shelf id') u ∨ id' = id ∧ taken = some u)
  first : ∀ t, taken = some t → s'.clock = (Clock.read s.clock).2 ∧ isDated t = true ∧
    ¬ Taken s.tree (s.shelf id) t ∧
    (Clock.read s.clock).1 ≤ t ∧ ∀ v, (Clock.read s.clock).1 ≤ v → v < t →
    Taken s.tree (s.shelf id) v

theorem attempt_of_write {s : Store κ} {tree tree' : Tree} {id : Text} {t : Int}
    {written : Option Int} {cache : List (Text × List Record)}
    (hmade : Tree.Keeps (· ∈ (s.shelf id).ancestors ++ [s.shelf id]) s.tree tree)
    (hk : Tree.Keeps (fun q => ∃ name, q = (s.shelf id).child name) tree tree')
    (hwritten : written = none ∨ written = some t) (htakes : ∀ u, isDated u = true →
      (Taken tree' (s.shelf id) u ↔ Taken tree (s.shelf id) u ∨ written = some u))
    (hfree : freeInstant s.host.bars tree (s.shelf id) (tree.nodes.length + 1)
      (Clock.read s.clock).1 = .ok t) :
    Attempt s { s with tree := tree', clock := (Clock.read s.clock).2, cache } id written := by
  obtain ⟨hle, ht, hnew, hbefore⟩ := freeInstant_eq_ok hfree
  refine ⟨rfl, rfl, rfl, .inr rfl, fun id' u hu => ?_, fun t' ht' => ?_⟩
  · by_cases hid : id' = id
    · rw [hid, htakes u hu, taken_made hmade, and_iff_right rfl]
    · rw [taken_keeps hk fun ⟨name, heq⟩ => hid (child_child_inj heq), taken_made hmade]
      exact (or_iff_left fun h => hid h.1).symm
  · have hsame : t' = t := by
      rcases hwritten with hnone | hsome
      · rw [hnone] at ht'
        cases ht'
      · rw [hsome] at ht'
        exact (Option.some.inj ht').symm
    rw [hsame]
    exact ⟨rfl, ht, fun htaken => hnew ((taken_made hmade id t).mpr htaken), hle,
      fun v hv hvt => (taken_made hmade id v).mp (hbefore v hv hvt)⟩

/-- A save either fails and shows nothing new, or shows one record more, in its own directory and
under an instant that was free. -/
theorem save_cases (s : Store κ) (script : Text) (version : ScriptVersion) (valid : Bool)
    (notes : Option Text) :
    (∃ e s' taken, s.save script version valid notes = (.error e, s') ∧
      Attempt s s' (Digest.contentId script) taken ∧
        s'.cache = s.cache ∧ ∀ id kept, Shelf s.tree (s.shelf id) kept →
        Shelf s'.tree (s.shelf id) kept) ∨
      ∃ t s', s.save script version valid notes = (.ok (Digest.contentId script), s') ∧
        Attempt s s' (Digest.contentId script) (some t) ∧
        s'.cache = (s.remember (Digest.contentId script)
          ⟨Digest.contentId script, timestamp t, script, version, valid, notes⟩).cache ∧
        ∀ id kept, Shelf s.tree (s.shelf id) kept → Shelf s'.tree (s.shelf id)
          (if id = Digest.contentId script then
            kept ++ [(t, ⟨Digest.contentId script, timestamp t, script, version, valid, notes⟩)]
              else kept) := by
  rw [Store.save]
  dsimp only
  generalize Digest.contentId script = id
  obtain ⟨hmade, hstay, hdir⟩ :=
    Tree.makeDirectories_cases s.host.bars s.tree (s.directory.child id)
  cases hmake : s.tree.makeDirectories s.host.bars (s.directory.child id) with
  | mk outcome tree =>
    rw [hmake] at hmade hstay hdir
    change Tree.Keeps (· ∈ (s.shelf id).ancestors ++ [s.shelf id]) s.tree tree at hmade
    change _ → tree.isDirectory (s.shelf id) = true at hdir
    have htakes (id' : Text) (u : Int) (_ : isDated u = true) : Taken tree (s.shelf id') u ↔
        Taken s.tree (s.shelf id') u ∨ id' = id ∧ none = some u :=
      (taken_made hmade id' u).trans (or_iff_left nofun).symm
    cases outcome with
    | error e =>
      refine .inl ⟨_, { s with tree }, none, rfl, ⟨rfl, rfl, rfl, .inl rfl, htakes, nofun⟩, rfl, ?_⟩
      exact fun _ _ h => h.made hmade hstay
    | ok u =>
      have hdir := hdir rfl
      dsimp only
      cases hfree : freeInstant s.host.bars tree (s.directory.child id) (tree.nodes.length + 1)
          (Clock.read s.clock).1 with
      | error e =>
        exact .inl ⟨_, _, none, rfl, ⟨rfl, rfl, rfl, .inr rfl, htakes, nofun⟩, rfl,
          fun _ _ h => h.made hmade hstay⟩
      | ok t =>
        obtain ⟨-, ht, hnew, -⟩ := freeInstant_eq_ok hfree
        let r : Record := ⟨id, timestamp t, script, version, valid, notes⟩
        obtain ⟨tree', written, hk, hwritten, htakes, hwrite⟩ :=
          writeRecord_cases (s := { s with tree, clock := (Clock.read s.clock).2 }) ht hnew hdir r
        dsimp only
        rcases hwrite with ⟨e, hwrite, hshelf⟩ | ⟨hwrite, rfl, hshelf⟩
        · rw [hwrite]
          refine .inl ⟨_, _, written, rfl, attempt_of_write hmade hk hwritten htakes hfree, rfl,
            fun id' kept h => ?_⟩
          by_cases hid : id' = id
          · rw [hid] at h ⊢
            exact hshelf kept (h.made hmade hstay)
          · exact (h.made hmade hstay).elsewhere hk hid
        · rw [hwrite]
          refine .inr ⟨t, _, rfl, ?_, remember_cache s tree' _ id r, fun id' kept h => ?_⟩
          · rw [remember_eq]
            exact attempt_of_write hmade hk hwritten htakes hfree
          · rw [remember_eq]
            split
            · next hid =>
              rw [hid] at h ⊢
              exact hshelf kept (h.made hmade hstay)
            · next hid => exact (h.made hmade hstay).elsewhere hk hid

/-- A save fails for want of a dated instant only if the clock shows none, or all from there on are
taken. -/
theorem save_undated {s : Store κ} {script : Text} {version : ScriptVersion} {valid : Bool}
    {notes : Option Text} (h : (s.save script version valid notes).1 = .error .undated)
    (hdated : isDated (Clock.read s.clock).1 = true) {u : Int} (hu : isDated u = true)
    (hle : (Clock.read s.clock).1 ≤ u) : Taken s.tree (s.shelf (Digest.contentId script)) u := by
  rw [Store.save] at h
  dsimp only at h
  generalize Digest.contentId script = id at h ⊢
  obtain ⟨hmade, -, -⟩ := Tree.makeDirectories_cases s.host.bars s.tree (s.directory.child id)
  cases hmake : s.tree.makeDirectories s.host.bars (s.directory.child id) with
  | mk outcome tree =>
    rw [hmake] at hmade h
    cases outcome with
    | error e => cases h
    | ok made =>
      dsimp only at h
      cases hfree : freeInstant s.host.bars tree (s.directory.child id) (tree.nodes.length + 1)
          (Clock.read s.clock).1 with
      | error e =>
        rw [hfree] at h
        cases h
        exact (taken_made hmade id u).mp (taken_of_freeInstant_undated hfree hdated hu hle)
      | ok t =>
        rw [hfree] at h
        dsimp only at h
        rcases writeRecord_outcome { s with tree, clock := (Clock.read s.clock).2 }
            (s.directory.child id) (fileStem t)
              ⟨id, timestamp t, script, version, valid, notes⟩ with
          ⟨e, s', hwrite⟩ | ⟨s', hwrite⟩
        all_goals
          rw [hwrite] at h
          cases h

end Save

end PineTools.History
