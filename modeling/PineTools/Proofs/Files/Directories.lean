import PineTools.Files.Tree

namespace PineTools.Files

namespace Path

theorem child_inj {dir : Path} {a b : Text} : dir.child a = dir.child b ↔ a = b := by
  refine ⟨fun h => ?_, congrArg _⟩
  have hnames := congrArg names h
  exact (List.cons.inj (List.append_cancel_left hnames)).1

theorem child_ne_self (dir : Path) (name : Text) : dir.child name ≠ dir := by
  intro h
  have hlength := congrArg (fun p : Path => p.names.length) h
  simp [child] at hlength

theorem ne_children (dir : Path) (a b : Text) : ¬ (dir = dir.child a ∨ dir = dir.child b) := by
  rintro (h | h) <;> exact child_ne_self dir _ h.symm

theorem name_child (dir : Path) (name : Text) : (dir.child name).name = name := by
  simp [child, Path.name]

theorem addSuffix_child (dir : Path) (name suffix : Text) :
    (dir.child name).addSuffix suffix = dir.child (name ++ suffix) := by
  rw [addSuffix, name_child, child, child, List.dropLast_concat]

theorem isIn_child (dir : Path) (name : Text) : (dir.child name).isIn dir = true := by
  simp [isIn, child]

theorem isIn_iff {p dir : Path} : p.isIn dir = true ↔ ∃ name, p = dir.child name := by
  refine ⟨fun h => ?_, fun ⟨name, h⟩ => h ▸ isIn_child dir name⟩
  obtain ⟨root, names⟩ := p
  simp only [isIn, Bool.and_eq_true, beq_iff_eq, Bool.not_eq_true', List.isEmpty_eq_false_iff] at h
  obtain ⟨⟨hroot, hne⟩, hnames⟩ := h
  refine ⟨names.getLast hne, ?_⟩
  rw [child, ← hnames, List.dropLast_concat_getLast, hroot]

theorem length_ancestors {p a : Path} (h : a ∈ p.ancestors) : a.names.length < p.names.length := by
  obtain ⟨n, hn, rfl⟩ := List.mem_map.mp h
  have hn := List.mem_range.mp (List.mem_of_mem_drop hn)
  exact Nat.lt_of_le_of_lt (List.length_take_le n p.names) hn

end Path

namespace Tree

variable {bars : Bars} {t t' : Tree} {p q dir : Path} {n : Node} {name : Text}

theorem node?_of_names_nil (h : q.names = []) : t.node? q = some .directory := by
  rw [node?, h]
  rfl

theorem node?_of_ne_nil (h : q.names ≠ []) :
    t.node? q = (t.nodes.find? fun e => e.1 == q).map Prod.snd := by
  rw [node?, List.isEmpty_eq_false_iff.mpr h]
  rfl

theorem find?_filter_ne (nodes : List (Path × Node)) (hne : q ≠ p) :
    ((nodes.filter fun e => e.1 != p).find? fun e => e.1 == q) = nodes.find? fun e => e.1 == q := by
  rw [List.find?_filter]
  congr 1
  funext e
  cases he : e.1 == q with
  | false => simp
  | true => simpa [beq_iff_eq.mp he] using hne

theorem node?_set_self (hp : p.names ≠ []) : (t.set p n).node? p = some n := by
  rw [node?_of_ne_nil hp, set, List.find?_cons, beq_self_eq_true]
  rfl

theorem node?_set_of_ne (h : q ≠ p) : (t.set p n).node? q = t.node? q := by
  by_cases hq : q.names = []
  · rw [node?_of_names_nil hq, node?_of_names_nil hq]
  · have hhead : (p == q) = false := beq_eq_false_iff_ne.mpr fun heq => h heq.symm
    rw [node?_of_ne_nil hq, node?_of_ne_nil hq, set, List.find?_cons, hhead, find?_filter_ne _ h]

theorem node?_erase_of_ne (h : q ≠ p) : (t.erase p).node? q = t.node? q := by
  by_cases hq : q.names = []
  · rw [node?_of_names_nil hq, node?_of_names_nil hq]
  · rw [node?_of_ne_nil hq, node?_of_ne_nil hq, erase, find?_filter_ne _ h]

theorem isDirectory_iff : t.isDirectory p = true ↔ t.node? p = some .directory := by
  rw [isDirectory]
  split
  · next h => simp [h]
  · next h => simpa using h

theorem hasEntry_iff : t.hasEntry p = true ↔ ∃ n, t.node? p = some n := Option.isSome_iff_exists

theorem look_eq_error_iff {e : FileError} :
    t.look bars p = .error e ↔ ∃ barrier, bars t p = some barrier ∧ e = .barred barrier p := by
  rw [look]
  cases bars t p with
  | none => exact ⟨nofun, fun ⟨_, h, _⟩ => nomatch h⟩
  | some barrier =>
    exact ⟨fun h => ⟨barrier, rfl, (Except.error.inj h).symm⟩, fun ⟨_, h, e⟩ => by cases h; rw [e]⟩

theorem look_eq_ok_iff {found : Option Node} :
    t.look bars p = .ok found ↔ bars t p = none ∧ t.node? p = found := by
  rw [look]
  cases bars t p with
  | none => rw [Except.ok.injEq, and_iff_right rfl]
  | some barrier => exact ⟨nofun, fun h => nomatch h.1⟩

@[simp] theorem look_never : t.look .never p = .ok (t.node? p) := rfl

theorem read_eq_ok_iff {data : ByteArray} :
    t.read bars p = .ok data ↔ t.look bars p = .ok (some (.file data)) := by
  rw [read]
  split
  · next e h => rw [h]; exact ⟨nofun, nofun⟩
  · next data' h =>
    rw [h]
    simp only [Except.ok.injEq, Option.some.injEq, Node.file.injEq]
  · next h => rw [h]; exact ⟨nofun, fun e => nomatch Option.some.inj (Except.ok.inj e)⟩
  · next h => rw [h]; split <;> exact ⟨nofun, nofun⟩

theorem read_never_file {data : ByteArray} (h : t.node? p = some (.file data)) :
    t.read .never p = .ok data :=
  read_eq_ok_iff.mpr (congrArg Except.ok h)

theorem read_never_none (h : t.node? p = none) : ∃ e, t.read .never p = .error e := by
  rw [read, look_never, h]
  cases t.checkAncestors p with
  | ok u => exact ⟨_, rfl⟩
  | error e => exact ⟨e, rfl⟩

/-- No entry of the directory is kept twice. -/
def Distinct (t : Tree) (dir : Path) : Prop :=
  ((t.nodes.filter fun e => e.1.isIn dir).map Prod.fst).Nodup

theorem Distinct.erase (h : t.Distinct dir) (p : Path) : (t.erase p).Distinct dir := by
  refine List.Nodup.sublist (List.Sublist.map _ ?_) h
  exact List.Sublist.filter _ List.filter_sublist

theorem Distinct.set (h : t.Distinct dir) (p : Path) (n : Node) : (t.set p n).Distinct dir := by
  have herase := h.erase p
  rw [Distinct, Tree.set, List.filter_cons]
  split
  · rw [List.map_cons, List.nodup_cons]
    refine ⟨fun hp => ?_, herase⟩
    obtain ⟨e, he, heq⟩ := List.mem_map.mp hp
    exact absurd heq (bne_iff_ne.mp (List.mem_filter.mp (List.mem_filter.mp he).1).2)
  · exact herase

theorem hasEntry_child :
    t.hasEntry (dir.child name) = true ↔
    dir.child name ∈ (t.nodes.filter fun e => e.1.isIn dir).map Prod.fst := by
  have hne : (dir.child name).names ≠ [] := by simp [Path.child]
  rw [hasEntry, node?_of_ne_nil hne, Option.isSome_map, List.find?_isSome, List.mem_map]
  constructor
  · rintro ⟨e, he, hp⟩
    refine ⟨e, List.mem_filter.mpr ⟨he, ?_⟩, beq_iff_eq.mp hp⟩
    rw [beq_iff_eq.mp hp]
    exact Path.isIn_child dir name
  · rintro ⟨e, he, hp⟩
    exact ⟨e, (List.mem_filter.mp he).1, beq_iff_eq.mpr hp⟩

theorem mem_entries : name ∈ t.entries dir ↔ t.hasEntry (dir.child name) = true := by
  rw [entries, List.mem_mergeSort, hasEntry_child, List.mem_map, List.mem_map]
  constructor
  · rintro ⟨e, he, rfl⟩
    obtain ⟨name, hname⟩ := Path.isIn_iff.mp (List.mem_filter.mp he).2
    refine ⟨e, he, ?_⟩
    rw [hname, Path.name_child]
  · rintro ⟨e, he, hp⟩
    refine ⟨e, he, ?_⟩
    rw [hp, Path.name_child]

theorem nodup_entries (h : t.Distinct dir) : (t.entries dir).Nodup := by
  rw [entries, (List.mergeSort_perm _ _).nodup_iff]
  have hnames : (((t.nodes.filter fun e => e.1.isIn dir).map Prod.fst).map Path.name).Nodup := by
    refine List.pairwise_map.mpr (List.Pairwise.imp_of_mem ?_ h)
    intro a b ha hb hab heq
    obtain ⟨e, he, rfl⟩ := List.mem_map.mp ha
    obtain ⟨f, hf, rfl⟩ := List.mem_map.mp hb
    obtain ⟨n, hn⟩ := Path.isIn_iff.mp (List.mem_filter.mp he).2
    obtain ⟨m, hm⟩ := Path.isIn_iff.mp (List.mem_filter.mp hf).2
    rw [hn, hm, Path.name_child, Path.name_child] at heq
    exact hab (by rw [hn, hm, heq])
  rwa [List.map_map] at hnames

theorem entries_sorted (h : t.Distinct dir) : (t.entries dir).Pairwise (· < ·) := by
  have hle : (t.entries dir).Pairwise fun a b => !decide (b < a) := by
    refine List.pairwise_mergeSort (fun a b c hab hbc => ?_) (fun a b => ?_) _
    · simp only [Bool.not_eq_true', decide_eq_false_iff_not] at hab hbc ⊢
      exact List.le_trans hab hbc
    · simp only [Bool.or_eq_true, Bool.not_eq_true', decide_eq_false_iff_not]
      exact List.le_total a b
  refine (hle.and (nodup_entries h)).imp fun {a b} hab => ?_
  rw [Bool.not_eq_true', decide_eq_false_iff_not] at hab
  exact (List.le_iff_lt_or_eq.mp hab.1).resolve_right hab.2

theorem entries_eq_of_perm (h : t.Distinct dir) {names : List Text}
    (hsorted : names.Pairwise (· < ·))
    (hperm : names.Perm ((t.nodes.filter fun n => n.1.isIn dir).map fun n => n.1.name)) :
    t.entries dir = names :=
  List.Perm.eq_of_pairwise
    (fun a _ _ _ hab hba => absurd (List.lt_trans hab hba) (List.lt_irrefl a))
    (entries_sorted h) hsorted
    ((List.mergeSort_perm _ _).trans hperm.symm)

end Tree
end PineTools.Files
