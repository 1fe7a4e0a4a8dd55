import PineTools.Proofs.History.Runs

/-! Cached histories. A history is cached as it was read, and each save of its identifier adds its
record at the end. So it shows what a store without a cache reads, but in the order of the saves;
the two orders agree as long as the clock does not go back. -/
namespace PineTools.History

open Files

/-- A call on a store. -/
inductive Operation where
  | save (request : SaveRequest)
  | history (id : Text)
  | get (id : Text) (index : Option Int)
  | clearCache

section Orders

variable {α : Type} {R : α → α → Prop} {a b : List α}

theorem eq_or_rel_getLast? (h : a.Pairwise R) {last : α} (hlast : a.getLast? = some last) :
    ∀ x ∈ a, x = last ∨ R x last := by
  obtain ⟨init, rfl⟩ := List.getLast?_eq_some_iff.mp hlast
  intro x hx
  rcases List.mem_append.mp hx with hx | hx
  · exact .inr ((List.pairwise_append.mp h).2.2 x hx last (List.mem_singleton.mpr rfl))
  · exact .inl (List.mem_singleton.mp hx)

variable (hirrefl : ∀ x, ¬ R x x) (htrans : ∀ x y z, R x y → R y z → R x z)
include hirrefl htrans

/-- A list has the order of a sorted one with the same elements if it is sorted itself. -/
theorem eq_iff_pairwise_of_perm (hperm : a.Perm b) (hb : b.Pairwise R) : a = b ↔ a.Pairwise R := by
  refine ⟨fun h => h ▸ hb, fun ha =>
    List.Perm.eq_of_pairwise (fun x y _ _ hxy hyx => ?_) ha hb hperm⟩
  exact absurd (htrans x y x hxy hyx) (hirrefl x)

/-- It ends like the sorted one if nothing in it comes after its last element. -/
theorem getLast?_eq_iff_of_perm (hperm : a.Perm b) (hb : b.Pairwise R) :
    a.getLast? = b.getLast? ↔ ∀ last ∈ a.getLast?, ∀ x ∈ a, ¬ R last x := by
  constructor
  · intro h last hlast x hx hlt
    rcases eq_or_rel_getLast? hb (h.symm.trans hlast) x (hperm.mem_iff.mp hx) with rfl | hrel
    · exact hirrefl x hlt
    · exact hirrefl x (htrans x last x hrel hlt)
  · intro h
    cases hlast : a.getLast? with
    | none =>
      rw [List.getLast?_eq_none_iff] at hlast
      rw [hlast, List.nil_perm] at hperm
      rw [hperm, List.getLast?_nil]
    | some last =>
      have hmem := hperm.mem_iff.mp (List.mem_of_getLast? hlast)
      have hlast' := List.getLast?_eq_some_getLast (List.ne_nil_of_mem hmem)
      generalize b.getLast _ = last' at hlast'
      rw [hlast']
      rcases eq_or_rel_getLast? hb hlast' last hmem with rfl | hrel
      · rfl
      · exact absurd hrel (h last hlast last' (hperm.mem_iff.mpr (List.mem_of_getLast? hlast')))

end Orders

variable {κ : Type}

section Cache

variable {s s' : Store κ} {id : Text}

theorem cached?_congr (henabled : s'.cacheEnabled = s.cacheEnabled) (hcache : s'.cache = s.cache)
    (id : Text) :
    s'.cached? id = s.cached? id := by
  rw [Store.cached?, Store.cached?, henabled, hcache]

theorem find?_map_records (cache : List (Text × List Record)) (id id' : Text) (r : Record) :
    (((cache.map fun c => if c.1 == id then (c.1, c.2 ++ [r]) else c).find? fun c =>
      c.1 == id').map Prod.snd) =
      ((cache.find? fun c => c.1 == id').map Prod.snd).map fun rs => if id' = id then rs ++ [r]
        else rs := by
  induction cache with
  | nil => rfl
  | cons c cache ih =>
    have hname : (if c.1 == id then (c.1, c.2 ++ [r]) else c).1 = c.1 := by split <;> rfl
    rw [List.map_cons, List.find?_cons, List.find?_cons, hname]
    cases hc : c.1 == id' with
    | false => exact ih
    | true =>
      rw [beq_iff_eq.mp hc]
      by_cases hid : id' = id
      · simp [hid]
      · simp [hid]

theorem cached?_remember (s : Store κ) (id id' : Text) (r : Record) :
    (s.remember id r).cached? id' = (s.cached? id').map fun rs => if id' = id then rs ++ [r]
      else rs := by
  rw [Store.remember]
  cases henabled : s.cacheEnabled with
  | false => rw [if_neg Bool.false_ne_true, Store.cached?, henabled]; rfl
  | true =>
    rw [if_pos rfl, Store.cached?, Store.cached?]
    dsimp only
    rw [henabled, if_pos rfl, if_pos rfl, find?_map_records]

theorem cached?_added (henabled : s.cacheEnabled = true) (hnone : s.cached? id = none)
    (records : List Record) (id' : Text) :
    ({ s with cache := s.cache ++ [(id, records)] } : Store κ).cached? id' = if id' =
      id then some records else s.cached? id' := by
  rw [Store.cached?, henabled, if_pos rfl] at hnone
  rw [Store.cached?, Store.cached?]
  dsimp only
  rw [henabled, if_pos rfl, if_pos rfl, List.find?_append]
  by_cases hid : id' = id
  · rw [hid, if_pos rfl, Option.map_eq_none_iff.mp hnone]
    simp
  · rw [if_neg hid]
    have hother : (id == id') = false := beq_eq_false_iff_ne.mpr fun h => hid h.symm
    simp [hother]

end Cache

section Shown

variable {s : Store κ} {saved : List (Int × Record)} {id : Text}

/-- A store whose caches show what is kept. -/
structure Mirrors (s : Store κ) (saved : List (Int × Record)) : Prop where
  keeping : Keeping s saved
  shown : ∀ id records, s.cached? id = some records → records.Perm ((under id saved).map Prod.snd)

theorem Keeping.history (h : Keeping s saved) (hid : isId id = true) :
    ∃ shown, (s.history id).1 = .ok shown ∧
    (s.cached? id = some shown ∧ (s.history id).2 = s ∨
      s.cached? id = none ∧ s.readBack id = .ok shown ∧
        (s.history id).2 = if s.cacheEnabled then { s with cache := s.cache ++ [(id, shown)] }
          else s) := by
  have hread := History.readBack_eq hid s
  obtain ⟨sorted, -, -, hload⟩ := (h.shelf id).load
  rw [Store.shelf, ← h.host] at hload hread
  rw [Store.history, hid]
  simp only [Bool.not_true, Bool.false_eq_true, if_false]
  cases hcached : s.cached? id with
  | some records => exact ⟨records, rfl, .inl ⟨rfl, rfl⟩⟩
  | none =>
    dsimp only
    rw [hload]
    exact ⟨_, rfl, .inr ⟨rfl, hread.trans hload, rfl⟩⟩

/-- What is shown and what is read back are the same records, the latter in the order of their time
stamps. -/
theorem Mirrors.history (h : Mirrors s saved) (hid : isId id = true) :
    ∃ shown fresh, (s.history id).1 = .ok shown ∧
    s.readBack id = .ok fresh ∧ shown.Perm fresh ∧ fresh.Pairwise (·.timestamp < ·.timestamp) := by
  obtain ⟨sorted, hperm, hsorted, hread⟩ := h.keeping.readBack hid
  obtain ⟨shown, hshown, hcases⟩ := h.keeping.history hid
  refine ⟨shown, sorted.map Prod.snd, hshown, hread, ?_, h.keeping.stamps hperm hsorted⟩
  rcases hcases with ⟨hcached, -⟩ | ⟨-, hread', -⟩
  · exact (h.shown id shown hcached).trans (hperm.map Prod.snd).symm
  · rw [hread] at hread'
    cases hread'
    exact .rfl

end Shown

variable [Clock κ Int]

def Store.perform (s : Store κ) : Operation → Store κ
  | .save request => (s.request request).2
  | .history id => (s.history id).2
  | .get id index => (s.get id index).2
  | .clearCache => s.clearCache

def Store.performAll (s : Store κ) (operations : List Operation) : Store κ :=
  operations.foldl Store.perform s

/-- The clock does not go back, and what is cached is in the order of the time stamps. -/
structure Steady (s : Store κ) (readings : Nat) : Prop where
  forward : Forward s.clock readings
  packed : Packed s readings
  sorted : ∀ id records, s.cached? id = some records → records.Pairwise (·.timestamp < ·.timestamp)

section Step

variable {s s' : Store κ} {saved : List (Int × Record)} {id : Text}

omit [Clock κ Int] in
/-- What is cached of what is kept is cached, or was read just now. -/
theorem Mirrors.ask (h : Mirrors s saved) (id : Text) :
    (s.history id).2.directory = s.directory ∧ (s.history id).2.host = s.host ∧
    (s.history id).2.tree = s.tree ∧ (s.history id).2.clock = s.clock ∧ ∀ id' records,
      (s.history id).2.cached? id' = some records →
      s.cached? id' = some records ∨ isId id' = true ∧ s.readBack id' = .ok records := by
  cases hid : isId id with
  | false =>
    have hsame : (s.history id).2 = s := by
      rw [Store.history, hid]
      rfl
    rw [hsame]
    exact ⟨rfl, rfl, rfl, rfl, fun _ _ h => .inl h⟩
  | true =>
    obtain ⟨shown, -, ⟨-, hsame⟩ | ⟨hnone, hread, hadded⟩⟩ := h.keeping.history hid
    · rw [hsame]
      exact ⟨rfl, rfl, rfl, rfl, fun _ _ h => .inl h⟩
    · rw [hadded]
      split
      · next henabled =>
        refine ⟨rfl, rfl, rfl, rfl, fun id' records hrecords => ?_⟩
        rw [cached?_added henabled hnone] at hrecords
        split at hrecords
        · next hid' =>
          cases hrecords
          rw [hid']
          exact .inr ⟨hid, hread⟩
        · exact .inl hrecords
      · exact ⟨rfl, rfl, rfl, rfl, fun _ _ h => .inl h⟩

omit [Clock κ Int] in
theorem Keeping.congr (h : Keeping s saved) (hdirectory : s'.directory = s.directory)
    (hhost : s'.host = s.host) (htree : s'.tree = s.tree) : Keeping s' saved := by
  refine ⟨hhost.trans h.host, fun id => ?_, h.stamped⟩
  rw [Store.shelf, hdirectory, htree]
  exact h.shelf id

theorem Steady.congr {n : Nat} (h : Steady s (n + 1)) (hdirectory : s'.directory = s.directory)
    (htree : s'.tree = s.tree) (hclock : s'.clock = s.clock)
    (hsorted : ∀ id records, s'.cached? id = some records →
      records.Pairwise (·.timestamp < ·.timestamp)) : Steady s' n := by
  refine ⟨fun i j hij hj => ?_, fun id u hu htaken => ?_, hsorted⟩
  · rw [hclock]
    exact h.forward i j hij (Nat.lt_succ_of_lt hj)
  · rw [htree, Store.shelf, hdirectory] at htaken
    obtain ⟨now, hnow, hall⟩ := h.packed id u hu htaken
    rw [hclock, htree, Store.shelf, hdirectory]
    exact ⟨now, fun k hk => hnow k (Nat.lt_succ_of_lt hk), hall⟩

theorem Mirrors.history_step (h : Mirrors s saved) (id : Text) :
    Mirrors (s.history id).2 saved ∧ ∀ n, Steady s (n + 1) → Steady (s.history id).2 n := by
  obtain ⟨hdirectory, hhost, htree, hclock, hcached⟩ := h.ask id
  have hread {id : Text} {records : List Record} (hid : isId id = true)
    (hrecords : s.readBack id = .ok records) :
      records.Perm ((under id saved).map Prod.snd) ∧
      records.Pairwise (·.timestamp < ·.timestamp) := by
    obtain ⟨sorted, hperm, hsorted, hsame⟩ := h.keeping.readBack hid
    rw [hsame] at hrecords
    cases hrecords
    exact ⟨hperm.map Prod.snd, h.keeping.stamps hperm hsorted⟩
  refine ⟨⟨h.keeping.congr hdirectory hhost htree, fun id' records hrecords => ?_⟩, fun n hsteady =>
    hsteady.congr hdirectory htree hclock fun id' records hrecords => ?_⟩
  · rcases hcached id' records hrecords with hbefore | ⟨hid, hnow⟩
    · exact h.shown id' records hbefore
    · exact (hread hid hnow).1
  · rcases hcached id' records hrecords with hbefore | ⟨hid, hnow⟩
    · exact hsteady.sorted id' records hbefore
    · exact (hread hid hnow).2

theorem Mirrors.clearCache (h : Mirrors s saved) :
    Mirrors s.clearCache saved ∧ ∀ n, Steady s (n + 1) → Steady s.clearCache n := by
  have hnone (id : Text) : s.clearCache.cached? id = none := by
    rw [Store.cached?, Store.clearCache]
    dsimp only
    rw [List.find?_nil, Option.map_none, ite_self]
  refine ⟨⟨h.keeping.congr rfl rfl rfl, fun id records hrecords => ?_⟩, fun n hsteady =>
    hsteady.congr rfl rfl rfl fun id records hrecords => ?_⟩
  · rw [hnone] at hrecords
    cases hrecords
  · rw [hnone] at hrecords
    cases hrecords

/-- A save adds its record at the end of what is cached. -/
theorem Mirrors.save (h : Mirrors s saved) (q : SaveRequest) :
    ∃ saved', Mirrors (s.request q).2 saved' ∧ ∀ n, Steady s (n + 1) →
    Steady (s.request q).2 n := by
  obtain ⟨taken, hattempt, hcases⟩ := h.keeping.request q
  rcases hcases with ⟨e, -, hcache, hkeeping⟩ | ⟨t, rfl, -, hcache, hkeeping⟩
  · have hcached := cached?_congr hattempt.caching hcache
    refine ⟨saved,
      ⟨hkeeping, fun id records hrecords => h.shown id records (hcached id ▸ hrecords)⟩,
      fun n hsteady =>
      ⟨hattempt.forward hsteady.forward, hattempt.packed hsteady.forward hsteady.packed,
        fun id records hrecords =>
        hsteady.sorted id records (hcached id ▸ hrecords)⟩⟩
  · have hcached (id : Text) : (s.request q).2.cached? id =
        (s.cached? id).map fun rs => if id = q.snapshot.id then rs ++ [q.snapshot.record t]
          else rs := by
      rw [← cached?_remember]
      refine cached?_congr (hattempt.caching.trans ?_) hcache id
      rw [remember_eq]
    refine ⟨_, ⟨hkeeping, fun id records hrecords => ?_⟩, fun n hsteady =>
      ⟨hattempt.forward hsteady.forward, hattempt.packed hsteady.forward hsteady.packed,
        fun id records hrecords => ?_⟩⟩
    · rw [hcached] at hrecords
      obtain ⟨before, hbefore, rfl⟩ := Option.map_eq_some_iff.mp hrecords
      rw [under_append, under_singleton, List.map_append, Snapshot.record_id]
      by_cases hid : id = q.snapshot.id
      · rw [if_pos hid, if_pos hid]
        exact (h.shown id before hbefore).append_right _
      · rw [if_neg hid, if_neg hid, List.map_nil, List.append_nil]
        exact h.shown id before hbefore
    · rw [hcached] at hrecords
      obtain ⟨before, hbefore, rfl⟩ := Option.map_eq_some_iff.mp hrecords
      by_cases hid : id = q.snapshot.id
      · rw [if_pos hid]
        refine List.pairwise_append.mpr
          ⟨hsteady.sorted id before hbefore, List.pairwise_singleton _ _, fun r hr r' hr' => ?_⟩
        rw [List.mem_singleton.mp hr']
        obtain ⟨e, he, rfl⟩ := List.mem_map.mp ((h.shown id before hbefore).mem_iff.mp hr)
        rw [h.keeping.stamped e (List.mem_filter.mp he).1]
        have hlt := h.keeping.latest hattempt hsteady.packed (hid ▸ he)
        exact instantText_lt ((h.keeping.shelf id).source e he).1 (hattempt.first t rfl).2.1 hlt _ _
      · rw [if_neg hid]
        exact hsteady.sorted id before hbefore

theorem Mirrors.perform (h : Mirrors s saved) (operation : Operation) :
    ∃ saved', Mirrors (s.perform operation) saved' ∧ ∀ n, Steady s (n + 1) →
    Steady (s.perform operation) n := by
  cases operation with
  | save request => exact h.save request
  | history id => exact ⟨saved, h.history_step id⟩
  | get id index => exact ⟨saved, h.history_step id⟩
  | clearCache => exact ⟨saved, h.clearCache⟩

theorem Mirrors.performAll (h : Mirrors s saved) (operations : List Operation) :
    ∃ saved', Mirrors (s.performAll operations) saved' ∧
    (Steady s operations.length → Steady (s.performAll operations) 0) := by
  induction operations generalizing s saved with
  | nil => exact ⟨saved, h, fun hsteady => hsteady⟩
  | cons operation operations ih =>
    obtain ⟨saved', h', hstep⟩ := h.perform operation
    obtain ⟨saved'', h'', hrun⟩ := ih h'
    exact ⟨saved'', h'', fun hsteady => hrun (hstep _ hsteady)⟩

end Step

section Fresh

variable {s : Store κ} {saved : List (Int × Record)} {id : Text}

/-- The store that reads the same files at the same moment without a cache. -/
def Store.fresh (s : Store κ) : Store κ := .new s.directory false s.tree s.clock

omit [Clock κ Int]

theorem history_of_not_isId (s : Store κ) (hid : isId id = false) :
    (s.history id).1 = .error (.badId id) := by
  rw [Store.history, hid]
  rfl

theorem get_eq (s : Store κ) (id : Text) (index : Option Int) :
    (s.get id index).1 = (s.history id).1.map fun records =>
    match index with
    | none => records.getLast?
    | some i => recordAt? records i := by
  cases index <;> rfl

theorem stamp_irrefl (r : Record) : ¬ r.timestamp < r.timestamp := List.lt_irrefl _

theorem stamp_trans (a b c : Record) (hab : a.timestamp < b.timestamp)
    (hbc : b.timestamp < c.timestamp) : a.timestamp < c.timestamp :=
  List.lt_trans hab hbc

/-- When a history and its latest record are those that are read from the files. -/
theorem Mirrors.fresh_iff (h : Mirrors s saved) (hid : isId id = true) :
    ∃ shown fresh, (s.history id).1 = .ok shown ∧
    (s.fresh.history id).1 = .ok fresh ∧ shown.Perm fresh ∧
    ((s.history id).1 = (s.fresh.history id).1 ↔ shown.Pairwise (·.timestamp < ·.timestamp)) ∧
    ((s.get id none).1 = (s.fresh.get id none).1 ↔ ∀ last ∈ shown.getLast?, ∀ r ∈ shown,
      ¬ last.timestamp < r.timestamp) := by
  obtain ⟨shown, fresh, hshown, hfresh, hperm, hsorted⟩ := h.history hid
  have hfresh : (s.fresh.history id).1 = .ok fresh := hfresh
  refine ⟨shown, fresh, hshown, hfresh, hperm, ?_, ?_⟩
  · rw [hshown, hfresh, Except.ok.injEq]
    exact eq_iff_pairwise_of_perm stamp_irrefl stamp_trans hperm hsorted
  · rw [get_eq, get_eq, hshown, hfresh]
    change Except.ok _ = Except.ok _ ↔ _
    rw [Except.ok.injEq]
    exact getLast?_eq_iff_of_perm stamp_irrefl stamp_trans hperm hsorted

end Fresh

section Start

variable {tree : Tree} {directory : Path} (cacheEnabled : Bool) (clock : κ)

omit [Clock κ Int] in
theorem cached?_new (id : Text) :
    (Store.new directory cacheEnabled tree clock).cached? id = none := by
  rw [Store.cached?, Store.new]
  dsimp only
  rw [List.find?_nil, Option.map_none, ite_self]

omit [Clock κ Int] in
theorem Vacant.mirrors (h : Vacant tree directory) :
    Mirrors (Store.new directory cacheEnabled tree clock) [] := by
  refine ⟨h.keeping cacheEnabled clock, fun id records hrecords => ?_⟩
  rw [cached?_new] at hrecords
  cases hrecords

theorem Vacant.steady (h : Vacant tree directory) {n : Nat} (hclock : Forward clock n) :
    Steady (Store.new directory cacheEnabled tree clock) n := by
  refine ⟨hclock, h.packed cacheEnabled clock n, fun id records hrecords => ?_⟩
  rw [cached?_new] at hrecords
  cases hrecords

end Start

/-- At every point of every run from an empty store on, a history shows the records that a store
without a cache reads; it is the same history iff its time stamps ascend, and its latest record is
the same iff no other has a later time stamp. If the clock never goes back both are always the same,
and so is every other record that is asked for. -/
theorem cache_shows_fresh_iff (directory : Path) (cacheEnabled : Bool) (tree : Tree) (clock : κ)
    (hvacant : Vacant tree directory) (operations : List Operation) :
    let s := (Store.new directory cacheEnabled tree clock).performAll operations
    (∀ id, isId id = true → ∃ shown fresh, (s.history id).1 = .ok shown ∧ (s.fresh.history id).1 =
      .ok fresh ∧ shown.Perm fresh ∧
      ((s.history id).1 = (s.fresh.history id).1 ↔ shown.Pairwise (·.timestamp < ·.timestamp)) ∧
      ((s.get id none).1 = (s.fresh.get id none).1 ↔
        ∀ last ∈ shown.getLast?, ∀ r ∈ shown, ¬ last.timestamp < r.timestamp)) ∧
      (∀ id, isId id = false → (s.history id).1 = (s.fresh.history id).1) ∧
      (Forward clock operations.length → ∀ id, (s.history id).1 = (s.fresh.history id).1 ∧
        ∀ index, (s.get id index).1 = (s.fresh.get id index).1) := by
  intro s
  obtain ⟨saved, hmirrors, hsteady⟩ := (hvacant.mirrors cacheEnabled clock).performAll operations
  refine ⟨fun id hid => hmirrors.fresh_iff hid, fun id hid => ?_, fun hclock id => ?_⟩
  · rw [history_of_not_isId s hid, history_of_not_isId s.fresh hid]
  · have hsteady := hsteady (hvacant.steady cacheEnabled clock hclock)
    have hsame : (s.history id).1 = (s.fresh.history id).1 := by
      cases hid : isId id with
      | false => rw [history_of_not_isId s hid, history_of_not_isId s.fresh hid]
      | true =>
        obtain ⟨shown, fresh, hshown, -, -, hiff, -⟩ := hmirrors.fresh_iff hid
        refine hiff.mpr ?_
        obtain ⟨shown', hshown', ⟨hcached, -⟩ | ⟨-, hread, -⟩⟩ := hmirrors.keeping.history hid
        · rw [hshown] at hshown'
          cases hshown'
          exact hsteady.sorted id shown hcached
        · rw [hshown] at hshown'
          cases hshown'
          exact hiff.mp (hshown.trans hread.symm)
    exact ⟨hsame, fun index => by rw [get_eq, get_eq, hsame]⟩

/-- A history that is asked for before the first save, and two saves by a clock that goes forward.
-/
theorem cache_shows_fresh_iff_forward :
    let id := Digest.contentId "plot(close)".toList
    let save : Operation := .save ⟨⟨"plot(close)".toList, .v5, true, none⟩, fun _ => false⟩
    let s := (Store.new (Path.ofText "history".toList) true Tree.empty
      (InstantClock.ofList [10, 20])).performAll
      [.history id, save, save]
    Forward (InstantClock.ofList [10, 20]) 3 ∧ (s.history id).1 = (s.fresh.history id).1 ∧
      (s.get id none).1 = (s.fresh.get id none).1 := by
  intro id save s
  have hvacant : Vacant Tree.empty (Path.ofText "history".toList) :=
    fun _ he => absurd he List.not_mem_nil
  have hforward : Forward (InstantClock.ofList [10, 20]) 3 := by
    intro i j hij hj
    have hreadings : ∀ j < 3, ∀ i ≤ j, Clock.reading (InstantClock.ofList [10, 20]) i ≤
        Clock.reading (InstantClock.ofList [10, 20]) j := by
      decide
    exact hreadings j hj i hij
  have hsame :=
    (cache_shows_fresh_iff (Path.ofText "history".toList) true Tree.empty
      (InstantClock.ofList [10, 20]) hvacant
    [.history id, save, save]).2.2 hforward id
  exact ⟨hforward, hsame.1, hsame.2 none⟩

/-- With a clock that goes back between two saves the cache shows them in the order in which they
were made, and the earlier instant as the latest. -/
theorem cache_shows_saves_out_of_order :
    let id := Digest.contentId "plot(close)".toList
    let save : Operation := .save ⟨⟨"plot(close)".toList, .v5, true, none⟩, fun _ => false⟩
    let s := (Store.new (Path.ofText "history".toList) true Tree.empty
      (InstantClock.ofList [10, 5])).performAll
      [.history id, save, save]
    (s.history id).1 ≠ (s.fresh.history id).1 ∧ (s.get id none).1 ≠ (s.fresh.get id none).1 := by
  intro id save s
  have hvacant : Vacant Tree.empty (Path.ofText "history".toList) :=
    fun _ he => absurd he List.not_mem_nil
  obtain ⟨saved, hmirrors, -⟩ := (hvacant.mirrors true (InstantClock.ofList [10, 5])).performAll
    [.history id, save, save]
  obtain ⟨shown, fresh, hshown, -, -, hhistory, hget⟩ :=
    hmirrors.fresh_iff (isId_contentId "plot(close)".toList)
  let record (t : Int) : Record := ⟨id, timestamp t, "plot(close)".toList, .v5, true, none⟩
  have hrecords : (s.history id).1 = .ok [record 10, record 5] := by decide +kernel
  rw [hrecords] at hshown
  cases hshown
  have hlater : timestamp 5 < timestamp 10 := instantText_lt (by decide) (by decide) (by decide) _ _
  refine ⟨fun h => ?_, fun h => ?_⟩
  · have hsorted := List.rel_of_pairwise_cons (hhistory.mp h) List.mem_cons_self
    exact List.lt_irrefl _ (List.lt_trans hlater hsorted)
  · exact hget.mp h (record 5) rfl (record 10) List.mem_cons_self hlater

end PineTools.History
