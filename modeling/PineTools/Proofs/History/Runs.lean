import PineTools.Proofs.History.Saving
import PineTools.Proofs.Validate.Clock

/-! Runs of saves. Whatever the clock shows and whichever writes fail, each directory shows exactly
the saves that succeeded, each under an instant of its own; with a clock that never goes back they
are shown in the order in which they were made. -/
namespace PineTools.History

open Files

structure Snapshot where
  content : Text
  version : ScriptVersion
  valid : Bool
  notes : Option Text
  deriving DecidableEq, Repr, Inhabited

def Snapshot.id (n : Snapshot) : Text := Digest.contentId n.content

def Snapshot.record (n : Snapshot) (t : Int) : Record :=
  ⟨n.id, timestamp t, n.content, n.version, n.valid, n.notes⟩

@[simp] theorem Snapshot.record_id (n : Snapshot) (t : Int) : (n.record t).id = n.id := rfl

def Record.snapshot (r : Record) : Snapshot := ⟨r.content, r.version, r.valid, r.notes⟩

/-- A call that saves something while the device refuses to write some files. -/
structure SaveRequest where
  snapshot : Snapshot
  refuses : Path → Bool

variable {κ : Type} [Clock κ Int]

def Store.request (s : Store κ) (q : SaveRequest) : Except SaveError Text × Store κ :=
  ({ s with tree := { s.tree with refuses := q.refuses } } : Store κ).save q.snapshot.content
    q.snapshot.version q.snapshot.valid
    q.snapshot.notes

/-- Carries out calls one after the other. -/
def Store.requests (s : Store κ) : List SaveRequest → List (Except SaveError Text) × Store κ
  | [] => ([], s)
  | q :: qs =>
    let (outcome, s) := s.request q
    let (outcomes, s) := s.requests qs
    (outcome :: outcomes, s)

omit [Clock κ Int] in
/-- The history that a fresh store without a cache reads. -/
def Store.readBack (s : Store κ) (id : Text) : Except LoadError (List Record) :=
  ((Store.new s.directory false s.tree s.clock).history id).1

/-- What was saved under an identifier, in the order of the calls. -/
def savedUnder (id : Text) (requests : List SaveRequest) (outcomes : List (Except SaveError Text)) :
    List Snapshot :=
  (requests.zip outcomes).filterMap fun p =>
    match p.2 with
    | .ok id' => if id' = id then some p.1.snapshot else none
    | .error _ => none

def under (id : Text) (saved : List (Int × Record)) :
    List (Int × Record) := saved.filter fun e => e.2.id == id

/-- The directories of the store show exactly what was saved. -/
structure Keeping (s : Store κ) (saved : List (Int × Record)) : Prop where
  host : s.host = .plain
  shelf : ∀ id, Shelf s.tree (s.shelf id) (under id saved)
  stamped : ∀ e ∈ saved, e.2.timestamp = timestamp e.1

/-- The next readings of the clock never go back. -/
def Forward (clock : κ) (readings : Nat) : Prop :=
  ∀ i j, i ≤ j → j < readings → Clock.reading clock i ≤ Clock.reading clock j

/-- Each taken instant was searched for from one that no later reading comes before, and all between
the two are taken. -/
def Packed (s : Store κ) (readings : Nat) : Prop :=
  ∀ id u, isDated u = true → Taken s.tree (s.shelf id) u →
    ∃ now, (∀ n < readings, now ≤ Clock.reading s.clock n) ∧
    ∀ v, isDated v = true → now ≤ v → v < u → Taken s.tree (s.shelf id) v

/-- The records of each identifier are in the order of their instants. -/
def Ordered (saved : List (Int × Record)) : Prop := ∀ id, (under id saved).Pairwise (·.1 < ·.1)

section Step

variable {s s' : Store κ} {saved : List (Int × Record)} {q : SaveRequest}

theorem under_append (id : Text) (a b : List (Int × Record)) :
    under id (a ++ b) = under id a ++ under id b := List.filter_append ..

theorem under_singleton (id : Text) (t : Int) (r : Record) :
    under id [(t, r)] = if id = r.id then [(t, r)] else [] := by
  simp only [under, List.filter_cons, List.filter_nil, beq_iff_eq]
  by_cases hid : id = r.id
  · rw [if_pos hid, if_pos hid.symm]
  · rw [if_neg hid, if_neg fun h => hid h.symm]

/-- A call that fails leaves everything as it was; one that succeeds adds its record. -/
theorem Keeping.request (h : Keeping s saved) (q : SaveRequest) :
    ∃ taken, Attempt s (s.request q).2 q.snapshot.id taken ∧
    ((∃ e, (s.request q).1 = .error e ∧ (s.request q).2.cache = s.cache ∧
      Keeping (s.request q).2 saved) ∨
      ∃ t, taken = some t ∧ (s.request q).1 = .ok q.snapshot.id ∧
        (s.request q).2.cache = (s.remember q.snapshot.id (q.snapshot.record t)).cache ∧
        Keeping (s.request q).2 (saved ++ [(t, q.snapshot.record t)])) := by
  let s₀ : Store κ := { s with tree := { s.tree with refuses := q.refuses } }
  have hshelf (id : Text) : Shelf s₀.tree (s₀.shelf id) (under id saved) :=
    have h := h.shelf id
    ⟨h.distinct, h.sources, h.source, h.metadata, h.others, h.instants, h.directory⟩
  rcases save_cases s₀ q.snapshot.content q.snapshot.version q.snapshot.valid q.snapshot.notes with
    ⟨e, s', taken, hsave, hattempt, hcache, hshelf'⟩ | ⟨t, s', hsave, hattempt, hcache, hshelf'⟩
  · have hrequest : s.request q = (.error e, s') := hsave
    rw [hrequest]
    refine ⟨taken, ⟨hattempt.directory, hattempt.host, hattempt.caching, hattempt.clock,
      hattempt.takes, hattempt.first⟩,
      .inl ⟨e, rfl, hcache, hattempt.host.trans h.host, fun id => ?_, h.stamped⟩⟩
    rw [Store.shelf, hattempt.directory]
    exact hshelf' id _ (hshelf id)
  · have hrequest : s.request q = (.ok q.snapshot.id, s') := hsave
    rw [hrequest]
    refine ⟨some t, ⟨hattempt.directory, hattempt.host, hattempt.caching, hattempt.clock,
      hattempt.takes, hattempt.first⟩,
      .inr ⟨t, rfl, rfl, hcache.trans (remember_cache s _ _ _ _), hattempt.host.trans h.host,
        fun id => ?_, fun e he => ?_⟩⟩
    · have hadded : Shelf s'.tree (s.directory.child id) (if id = q.snapshot.id then
          under id saved ++ [(t, q.snapshot.record t)] else under id saved) :=
            hshelf' id _ (hshelf id)
      rw [Store.shelf, hattempt.directory, under_append, under_singleton, Snapshot.record_id]
      split at hadded
      · next hid => rwa [if_pos hid]
      · next hid => rwa [if_neg hid, List.append_nil]
    · rcases List.mem_append.mp he with he | he
      · exact h.stamped e he
      · cases List.mem_singleton.mp he
        rfl

/-- Later readings of a clock that does not go back do not go back either. -/
theorem Attempt.forward {id : Text} {taken : Option Int} (h : Attempt s s' id taken) {n : Nat}
    (hclock : Forward s.clock (n + 1)) :
    Forward s'.clock n := by
  intro i j hij hj
  rcases h.clock with heq | heq
  · rw [heq]
    exact hclock i j hij (Nat.lt_succ_of_lt hj)
  · rw [heq]
    exact hclock (i + 1) (j + 1) (Nat.succ_le_succ hij) (Nat.succ_lt_succ hj)

theorem Attempt.packed {id : Text} {taken : Option Int} (h : Attempt s s' id taken) {n : Nat}
    (hclock : Forward s.clock (n + 1)) (hpacked : Packed s (n + 1)) : Packed s' n := by
  have hgrows (id' : Text) (v : Int) (hv : isDated v = true)
      (htaken : Taken s.tree (s.shelf id') v) : Taken s'.tree (s'.shelf id') v := by
    rw [Store.shelf, h.directory]
    exact (h.takes id' v hv).mpr (.inl htaken)
  have hreadings {now : Int} (hnow : ∀ k < n + 1, now ≤ Clock.reading s.clock k) :
      ∀ k < n, now ≤ Clock.reading s'.clock k := by
    intro k hk
    rcases h.clock with heq | heq
    · rw [heq]
      exact hnow k (Nat.lt_succ_of_lt hk)
    · rw [heq]
      exact hnow (k + 1) (Nat.succ_lt_succ hk)
  intro id' u hu htaken
  rw [Store.shelf, h.directory] at htaken
  rcases (h.takes id' u hu).mp htaken with hbefore | ⟨rfl, hnew⟩
  · obtain ⟨now, hnow, hall⟩ := hpacked id' u hu hbefore
    exact ⟨now, hreadings hnow, fun v hv hle hlt => hgrows id' v hv (hall v hv hle hlt)⟩
  · obtain ⟨hread, -, -, -, hall⟩ := h.first u hnew
    refine ⟨(Clock.read s.clock).1, fun k hk => ?_, fun v hv hle hlt =>
      hgrows id' v hv (hall v hle hlt)⟩
    rw [hread]
    exact hclock 0 (k + 1) (Nat.zero_le _) (Nat.succ_lt_succ hk)

/-- A new instant comes after all that are taken, if the clock does not go back. -/
theorem Attempt.latest {id : Text} {t : Int} (h : Attempt s s' id (some t)) {n : Nat}
    (hpacked : Packed s (n + 1)) {u : Int} (hu : isDated u = true)
    (htaken : Taken s.tree (s.shelf id) u) : u < t := by
  obtain ⟨-, ht, hfree, hle, -⟩ := h.first t rfl
  obtain ⟨now, hnow, hall⟩ := hpacked id u hu htaken
  refine Int.not_le.mp fun htu => hfree ?_
  rcases Int.lt_or_eq_of_le htu with hlt | rfl
  · exact hall t ht (Int.le_trans (hnow 0 (Nat.succ_pos n)) hle) hlt
  · exact htaken

theorem Keeping.latest {id : Text} {t : Int} (h : Keeping s saved)
    (hattempt : Attempt s s' id (some t)) {n : Nat} (hpacked : Packed s (n + 1)) {e : Int × Record}
    (he : e ∈ under id saved) : e.1 < t := by
  obtain ⟨hdated, hnode⟩ := (h.shelf id).source e he
  exact hattempt.latest hpacked hdated (Tree.hasEntry_iff.mpr ⟨_, hnode⟩)

theorem Keeping.ordered {t : Int} {r : Record} (h : Keeping s saved)
    (hattempt : Attempt s s' r.id (some t)) {n : Nat} (hpacked : Packed s (n + 1))
    (hordered : Ordered saved) : Ordered (saved ++ [(t, r)]) := by
  intro id
  rw [under_append, under_singleton]
  split
  · next hid =>
    refine List.pairwise_append.mpr ⟨hordered id, List.pairwise_singleton _ _, fun e he f hf => ?_⟩
    cases List.mem_singleton.mp hf
    rw [hid] at he
    exact h.latest hattempt hpacked he
  · rw [List.append_nil]
    exact hordered id

end Step

section Run

variable {s s' : Store κ} {saved : List (Int × Record)}

theorem savedUnder_cons_ok (id id' : Text) (q : SaveRequest) (qs : List SaveRequest)
    (outcomes : List (Except SaveError Text)) :
    savedUnder id (q :: qs) (.ok id' :: outcomes) = (if id = id' then [q.snapshot] else []) ++
      savedUnder id qs outcomes := by
  rw [savedUnder, List.zip_cons_cons, List.filterMap_cons]
  dsimp only
  by_cases hid : id = id'
  · rw [if_pos hid.symm, if_pos hid]
    rfl
  · rw [if_neg fun h => hid h.symm, if_neg hid]
    rfl

/-- What a run of calls saves is kept, besides what was kept before. -/
theorem Keeping.requests (h : Keeping s saved) (qs : List SaveRequest) :
    ∃ added, Keeping (s.requests qs).2 (saved ++ added) ∧
      (∀ id, (under id added).map (·.2.snapshot) = savedUnder id qs (s.requests qs).1) ∧
      (Forward s.clock qs.length → Packed s qs.length → Ordered saved →
        Ordered (saved ++ added)) := by
  induction qs generalizing s saved with
  | nil =>
    refine ⟨[], by rwa [List.append_nil], fun _ => rfl, fun _ _ hordered => ?_⟩
    rwa [List.append_nil]
  | cons q qs ih =>
    obtain ⟨taken, hattempt, hcases⟩ := h.request q
    rw [Store.requests]
    dsimp only
    rcases hcases with ⟨e, houtcome, -, hkeeping⟩ | ⟨t, htaken, houtcome, -, hkeeping⟩
    · obtain ⟨added, hkept, hsaved, hordered⟩ := ih hkeeping
      refine ⟨added, hkept, fun id => ?_, fun hclock hpacked => hordered (hattempt.forward hclock)
        (hattempt.packed hclock hpacked)⟩
      rw [houtcome, hsaved]
      rfl
    · obtain ⟨added, hkept, hsaved, hordered⟩ := ih hkeeping
      subst htaken
      refine ⟨(t, q.snapshot.record t) :: added, ?_, fun id => ?_, fun hclock hpacked hbefore => ?_⟩
      · rwa [List.append_assoc, List.singleton_append] at hkept
      · rw [houtcome, ← List.singleton_append, under_append, List.map_append, hsaved,
          under_singleton, Snapshot.record_id, savedUnder_cons_ok]
        by_cases hid : id = q.snapshot.id
        · rw [if_pos hid, if_pos hid]
          rfl
        · rw [if_neg hid, if_neg hid]
          rfl
      · have h := hordered (hattempt.forward hclock) (hattempt.packed hclock hpacked)
          (h.ordered (r := q.snapshot.record t) hattempt hpacked hbefore)
        rwa [List.append_assoc, List.singleton_append] at h

theorem request_isId {id : Text} (s : Store κ) (q : SaveRequest) (h : (s.request q).1 = .ok id) :
    isId id = true := by
  rcases save_cases { s with tree := { s.tree with refuses := q.refuses } } q.snapshot.content
    q.snapshot.version q.snapshot.valid
    q.snapshot.notes with ⟨e, s', taken, hsave, -⟩ | ⟨t, s', hsave, -⟩
  · rw [Store.request, hsave] at h
    cases h
  · rw [Store.request, hsave] at h
    cases h
    exact isId_contentId _

/-- Every identifier that is returned is one that histories are asked for. -/
theorem requests_isId {id : Text} (s : Store κ) (qs : List SaveRequest)
    (h : .ok id ∈ (s.requests qs).1) : isId id = true := by
  induction qs generalizing s with
  | nil => cases h
  | cons q qs ih =>
    rw [Store.requests] at h
    rcases List.mem_cons.mp h with h | h
    · exact request_isId s q h.symm
    · exact ih _ h

omit [Clock κ Int]

theorem history_of_uncached {s : Store κ} {id : Text} (hid : isId id = true)
    (hcached : s.cached? id = none) :
    (s.history id).1 = loadDirectory s.host s.tree (s.shelf id) := by
  rw [Store.history, hid, hcached, Store.shelf]
  cases loadDirectory s.host s.tree (s.directory.child id) <;> rfl

theorem readBack_eq {id : Text} (hid : isId id = true) (s : Store κ) :
    s.readBack id = loadDirectory .plain s.tree (s.shelf id) := by
  have hcached : (Store.new s.directory false s.tree s.clock).cached? id = none := rfl
  exact history_of_uncached hid hcached

theorem Keeping.readBack (h : Keeping s saved) {id : Text} (hid : isId id = true) :
    ∃ sorted : List (Int × Record),
    sorted.Perm (under id saved) ∧ sorted.Pairwise (·.1 < ·.1) ∧ s.readBack id =
      .ok (sorted.map Prod.snd) := by
  obtain ⟨sorted, hperm, hsorted, hload⟩ := (h.shelf id).load
  exact ⟨sorted, hperm, hsorted, (readBack_eq hid s).trans hload⟩

theorem eq_of_perm_of_ordered {a b : List (Int × Record)} (h : a.Perm b)
    (ha : a.Pairwise (·.1 < ·.1)) (hb : b.Pairwise (·.1 < ·.1)) :
    a = b :=
  List.Perm.eq_of_pairwise (fun _ _ _ _ hef hfe => absurd (Int.lt_trans hef hfe) (Int.lt_irrefl _))
    ha hb h

end Run

/-- Nothing lies in the directories of the store. -/
def Vacant (tree : Tree) (directory : Path) : Prop :=
  ∀ e ∈ tree.nodes, ∀ id, e.1.isIn (directory.child id) = false

section Start

variable {tree : Tree} {directory : Path}

theorem Vacant.filter_eq_nil (h : Vacant tree directory) (id : Text) :
    (tree.nodes.filter fun e => e.1.isIn (directory.child id)) = [] :=
  List.filter_eq_nil_iff.mpr fun e he => by rw [h e he id]; exact Bool.false_ne_true

theorem Vacant.hasEntry (h : Vacant tree directory) (id name : Text) :
    tree.hasEntry ((directory.child id).child name) = false := by
  refine Bool.eq_false_iff.mpr fun hentry => ?_
  have hmem := Tree.hasEntry_child.mp hentry
  rw [h.filter_eq_nil id] at hmem
  cases hmem

theorem Vacant.shelf (h : Vacant tree directory) (id : Text) :
    Shelf tree (directory.child id) [] := by
  refine Shelf.empty _ (h.hasEntry id) ?_
  rw [Tree.Distinct, h.filter_eq_nil id]
  exact List.nodup_nil

variable {κ : Type} (cacheEnabled : Bool) (clock : κ)

theorem Vacant.keeping (h : Vacant tree directory) :
    Keeping (Store.new directory cacheEnabled tree clock) [] :=
  ⟨rfl, fun id => h.shelf id, fun _ he => absurd he List.not_mem_nil⟩

theorem Vacant.packed [Clock κ Int] (h : Vacant tree directory) (n : Nat) :
    Packed (Store.new directory cacheEnabled tree clock) n := by
  intro id u _ htaken
  have hfree : tree.hasEntry ((directory.child id).child (sourceName u)) = false := h.hasEntry id _
  rw [Taken] at htaken
  exact absurd (htaken.symm.trans hfree) Bool.false_ne_true.symm

theorem ordered_nil : Ordered [] := fun _ => .nil

end Start

section Kept

variable {κ : Type} {s : Store κ} {saved : List (Int × Record)} {id : Text}

theorem Keeping.id_eq {e : Int × Record} (he : e ∈ under id saved) : e.2.id = id :=
  beq_iff_eq.mp (List.mem_filter.mp he).2

theorem Keeping.stamps (h : Keeping s saved) {sorted : List (Int × Record)}
    (hperm : sorted.Perm (under id saved)) (hsorted : sorted.Pairwise (·.1 < ·.1)) :
    (sorted.map Prod.snd).Pairwise (·.timestamp < ·.timestamp) := by
  refine List.pairwise_map.mpr (hsorted.imp_of_mem fun {e f} he hf hef => ?_)
  have he := hperm.mem_iff.mp he
  have hf := hperm.mem_iff.mp hf
  rw [h.stamped e (List.mem_filter.mp he).1, h.stamped f (List.mem_filter.mp hf).1]
  exact instantText_lt ((h.shelf id).source e he).1 ((h.shelf id).source f hf).1 hef _ _

theorem Keeping.readBack_eq {s' : Store κ} (h : Keeping s saved) (h' : Keeping s' saved)
    (id : Text) : s'.readBack id = s.readBack id := by
  cases hid : isId id with
  | false =>
    rw [Store.readBack, Store.readBack, Store.history, Store.history, hid]
    rfl
  | true =>
    obtain ⟨sorted, hperm, hsorted, hread⟩ := h.readBack hid
    obtain ⟨sorted', hperm', hsorted', hread'⟩ := h'.readBack hid
    rw [hread, hread', eq_of_perm_of_ordered (hperm'.trans hperm.symm) hsorted' hsorted]

end Kept

/-- The history loses, duplicates and alters nothing. From an empty store on, whatever the clock
shows and whichever writes are refused: reading back an identifier gives one record for each save
that returned it, with what was saved, under time stamps that differ and in their order; if the
clock never goes back this is the order of the saves; and a save that fails changes nothing that is
read back. -/
theorem history_keeps_every_save {κ : Type} [Clock κ Int] (directory : Path) (cacheEnabled : Bool)
    (tree : Tree) (clock : κ) (hvacant : Vacant tree directory) (requests : List SaveRequest) :
    let run := (Store.new directory cacheEnabled tree clock).requests requests
    (∀ id, .ok id ∈ run.1 → isId id = true) ∧
      (∀ id, isId id = true → ∃ records, run.2.readBack id = .ok records ∧
        (records.map Record.snapshot).Perm (savedUnder id requests run.1) ∧
        (∀ r ∈ records, r.id = id) ∧
        records.Pairwise (·.timestamp < ·.timestamp) ∧
        (Forward clock requests.length → records.map Record.snapshot =
          savedUnder id requests run.1)) ∧
      ∀ request e, (run.2.request request).1 = .error e →
      ∀ id, (run.2.request request).2.readBack id = run.2.readBack id := by
  intro run
  obtain ⟨saved, hkeeping, hsaved, hordered⟩ :=
    (hvacant.keeping cacheEnabled clock).requests requests
  rw [List.nil_append] at hkeeping
  refine ⟨fun id hid => requests_isId _ requests hid, fun id hid => ?_, fun request e hfailed id =>
    ?_⟩
  · obtain ⟨sorted, hperm, hsorted, hread⟩ := hkeeping.readBack hid
    refine ⟨sorted.map Prod.snd, hread, ?_, fun r hr => ?_, hkeeping.stamps hperm hsorted,
      fun hclock => ?_⟩
    · rw [List.map_map, ← hsaved id]
      exact hperm.map _
    · obtain ⟨e, he, rfl⟩ := List.mem_map.mp hr
      exact Keeping.id_eq (hperm.mem_iff.mp he)
    · have hinorder := hordered hclock (hvacant.packed cacheEnabled clock _) ordered_nil id
      rw [eq_of_perm_of_ordered hperm hsorted hinorder, List.map_map, ← hsaved id]
      rfl
  · obtain ⟨taken, -, ⟨e', -, -, hkept⟩ | ⟨t, -, hok, -⟩⟩ := hkeeping.request request
    · exact hkeeping.readBack_eq hkept id
    · rw [hfailed] at hok
      cases hok

/-- Two saves of a script at one reading of a clock, one that is refused in between, and one after
the clock went back. -/
theorem history_keeps_every_save_refused :
    let script : Snapshot := ⟨"plot(close)".toList, .v5, true, none⟩
    let requests : List SaveRequest :=
      [⟨script, fun _ => false⟩, ⟨{ script with valid := false }, fun _ => false⟩,
        ⟨script, fun _ => true⟩, ⟨{ script with version := .v6 }, fun _ => false⟩]
    let run := (Store.new (Path.ofText "history".toList) true Tree.empty
      (InstantClock.ofList [10, 10, 5])).requests requests
    run.1.map Except.toBool = [true, true, false, true] ∧
      Vacant Tree.empty (Path.ofText "history".toList) ∧
      ∀ id, isId id = true → ∃ records, run.2.readBack id = .ok records ∧
        (records.map Record.snapshot).Perm (savedUnder id requests run.1) := by
  intro script requests run
  have hvacant : Vacant Tree.empty (Path.ofText "history".toList) :=
    fun _ he => absurd he List.not_mem_nil
  refine ⟨by decide +kernel, hvacant, fun id hid => ?_⟩
  obtain ⟨records, hread, hperm, -⟩ :=
    (history_keeps_every_save _ true Tree.empty (InstantClock.ofList [10, 10, 5]) hvacant
    requests).2.1 id hid
  exact ⟨records, hread, hperm⟩

end PineTools.History
