import PineTools.Proofs.Files.Directories

namespace PineTools.Files

namespace Tree

variable {bars : Bars} {t t' t'' : Tree} {p q dir : Path} {name : Text} {data : ByteArray}

/-- Nothing but the given paths has changed. -/
structure Keeps (touched : Path → Prop) (t t' : Tree) : Prop where
  node : ∀ q, ¬ touched q → t'.node? q = t.node? q
  distinct : ∀ dir, t.Distinct dir → t'.Distinct dir

variable {touched touched' : Path → Prop}

theorem Keeps.refl (t : Tree) : Keeps touched t t := ⟨fun _ _ => rfl, fun _ h => h⟩

theorem Keeps.trans (h : Keeps touched t t') (h' : Keeps touched t' t'') : Keeps touched t t'' :=
  ⟨fun q hq => (h'.node q hq).trans (h.node q hq), fun dir hd =>
    h'.distinct dir (h.distinct dir hd)⟩

theorem Keeps.mono (h : Keeps touched t t') (hsub : ∀ q, touched q → touched' q) :
    Keeps touched' t t' :=
  ⟨fun q hq => h.node q fun hq' => hq (hsub q hq'), h.distinct⟩

theorem Keeps.isDirectory (h : Keeps touched t t') (hq : ¬ touched q) :
    t'.isDirectory q = t.isDirectory q := by
  rw [Tree.isDirectory, Tree.isDirectory, h.node q hq]

theorem Keeps.hasEntry (h : Keeps touched t t') (hq : ¬ touched q) :
    t'.hasEntry q = t.hasEntry q := by
  rw [Tree.hasEntry, Tree.hasEntry, h.node q hq]

theorem keeps_set (t : Tree) (n : Node) (h : touched p) : Keeps touched t (t.set p n) :=
  ⟨fun _ hq => node?_set_of_ne fun heq => hq (heq ▸ h), fun _ hd => hd.set p n⟩

theorem keeps_erase (t : Tree) (h : touched p) : Keeps touched t (t.erase p) :=
  ⟨fun _ hq => node?_erase_of_ne fun heq => hq (heq ▸ h), fun _ hd => hd.erase p⟩

theorem isDirectory_set_directory (h : t.isDirectory q = true) (p : Path) :
    (t.set p .directory).isDirectory q = true := by
  by_cases hq : q.names = []
  · rw [isDirectory_iff, node?_of_names_nil hq]
  · by_cases hqp : q = p
    · rw [← hqp, isDirectory_iff, node?_set_self hq]
    · rwa [isDirectory, node?_set_of_ne hqp, ← isDirectory]

theorem addDirectories_keeps (bars : Bars) (t : Tree) (paths : List Path) :
    Keeps (· ∈ paths) t (t.addDirectories bars paths).2 ∧
      ∀ q, t.isDirectory q = true → (t.addDirectories bars paths).2.isDirectory q = true := by
  induction paths generalizing t with
  | nil => exact ⟨Keeps.refl t, fun _ h => h⟩
  | cons a paths ih =>
    have hlater {t t' : Tree} (h : Keeps (· ∈ paths) t t') : Keeps (· ∈ a :: paths) t t' :=
      h.mono fun q hq => List.mem_cons_of_mem a hq
    rw [addDirectories]
    split
    · exact ⟨hlater (ih t).1, (ih t).2⟩
    · cases t.look bars a with
      | error e => exact ⟨Keeps.refl t, fun _ h => h⟩
      | ok found =>
        obtain ⟨hkeeps, hstay⟩ := ih (t.set a .directory)
        exact ⟨(keeps_set t .directory List.mem_cons_self).trans (hlater hkeeps),
          fun q hq => hstay q (isDirectory_set_directory hq a)⟩

theorem isDirectory_addDirectories {t : Tree} {paths : List Path} (hnew : p ∉ paths)
    (hfree : t.hasEntry p = true → t.isDirectory p = true)
    (h : (t.addDirectories bars (paths ++ [p])).1 = .ok ()) :
    (t.addDirectories bars (paths ++ [p])).2.isDirectory p = true := by
  induction paths generalizing t with
  | nil =>
    rw [List.nil_append, addDirectories] at h ⊢
    split at h
    · next hentry =>
      rw [if_pos hentry]
      exact hfree hentry
    · next hentry =>
      have hne : p.names ≠ [] := fun hnil => hentry (by rw [hasEntry, node?_of_names_nil hnil]; rfl)
      rw [if_neg hentry]
      cases hlook : t.look bars p with
      | error e =>
        rw [hlook] at h
        cases h
      | ok found => exact isDirectory_iff.mpr (node?_set_self hne)
  | cons a paths ih =>
    obtain ⟨hpa, hpaths⟩ := not_or.mp (mt List.mem_cons.mpr hnew)
    rw [List.cons_append, addDirectories] at h ⊢
    split at h
    · next hentry =>
      rw [if_pos hentry]
      exact ih hpaths hfree h
    · next hentry =>
      rw [if_neg hentry]
      cases hlook : t.look bars a with
      | error e =>
        rw [hlook] at h
        cases h
      | ok found =>
        rw [hlook] at h
        refine ih hpaths (fun hentry' => ?_) h
        rw [hasEntry, node?_set_of_ne hpa, ← hasEntry] at hentry'
        rw [isDirectory, node?_set_of_ne hpa, ← isDirectory]
        exact hfree hentry'

/-- Making a directory touches only the directories above it and itself, and all directories stay.
If it succeeds the directory is there. -/
theorem makeDirectories_cases (bars : Bars) (t : Tree) (p : Path) :
    Keeps (· ∈ p.ancestors ++ [p]) t (t.makeDirectories bars p).2 ∧
      (∀ q, t.isDirectory q = true → (t.makeDirectories bars p).2.isDirectory q = true) ∧
      ((t.makeDirectories bars p).1 = .ok () →
        (t.makeDirectories bars p).2.isDirectory p = true) := by
  rw [makeDirectories]
  split
  · exact ⟨Keeps.refl t, fun _ h => h, nofun⟩
  · cases hlook : t.look bars p with
    | error e => exact ⟨Keeps.refl t, fun _ h => h, nofun⟩
    | ok found =>
      dsimp only
      split
      · exact ⟨Keeps.refl t, fun _ h => h, nofun⟩
      · exact ⟨Keeps.refl t, fun _ h => h, nofun⟩
      · next hfile =>
        obtain ⟨hkeeps, hstay⟩ := addDirectories_keeps bars t (p.ancestors ++ [p])
        refine ⟨hkeeps, hstay, isDirectory_addDirectories (fun hp => ?_) fun hentry => ?_⟩
        · exact Nat.lt_irrefl _ (Path.length_ancestors hp)
        · obtain ⟨-, rfl⟩ := look_eq_ok_iff.mp hlook
          obtain ⟨n, hn⟩ := hasEntry_iff.mp hentry
          cases n with
          | directory => exact isDirectory_iff.mpr hn
          | file data => exact absurd hn (hfile data)

theorem write_ok (h : t.write bars p data = .ok t') : t' = t.set p (.file data) := by
  rw [write] at h
  cases hr : t.look bars p with
  | error e =>
    rw [hr] at h
    cases h
  | ok found =>
    cases hc : t.checkAncestors p with
    | error e =>
      rw [hr, hc] at h
      cases h
    | ok u =>
      rw [hr, hc] at h
      change (if t.isDirectory p then _ else if t.refuses p then _ else _) = _ at h
      split at h
      · cases h
      · split at h
        · cases h
        · exact (Except.ok.inj h).symm

theorem rename_ok (h : t.rename bars p q = .ok t') {data : ByteArray}
    (hp : t.node? p = some (.file data)) : t' = (t.erase p).set q (.file data) := by
  rw [rename] at h
  cases hr : t.read bars p with
  | error e =>
    rw [hr] at h
    cases h
  | ok data' =>
    obtain ⟨-, hp'⟩ := look_eq_ok_iff.mp (read_eq_ok_iff.mp hr)
    obtain rfl : data = data' := Node.file.inj (Option.some.inj (hp.symm.trans hp'))
    rw [hr] at h
    dsimp only at h
    split at h
    · cases h
    · exact (Except.ok.inj h).symm

def temporaryEnding : Text := ".tmp".toList

/-- An atomic write touches its temporary file and, if it succeeds, its target, which then holds the
data. -/
theorem writeAtomic_cases (bars : Bars) (t : Tree) (dir : Path) (name : Text) (data : ByteArray) :
    (∃ e t', t.writeAtomic bars (dir.child name) data = (.error e, t') ∧
        Keeps (· = dir.child (name ++ temporaryEnding)) t t') ∨
      ∃ t', t.writeAtomic bars (dir.child name) data = (.ok (), t') ∧
        t'.node? (dir.child name) = some (.file data) ∧
        Keeps (fun q => q = dir.child (name ++ temporaryEnding) ∨ q = dir.child name) t t' := by
  have hne (name : Text) : (dir.child name).names ≠ [] := by simp [Path.child]
  have htemporary : (dir.child name).addSuffix ".tmp".toList =
      dir.child (name ++ temporaryEnding) :=
    Path.addSuffix_child ..
  rw [writeAtomic, htemporary]
  cases hw : t.write bars (dir.child (name ++ temporaryEnding)) data with
  | error e => exact .inl ⟨e, t, rfl, Keeps.refl t⟩
  | ok written =>
    have hwritten := write_ok hw
    dsimp only
    cases hr : written.rename bars (dir.child (name ++ temporaryEnding)) (dir.child name) with
    | error e =>
      subst hwritten
      refine .inl ⟨e, _, rfl, Keeps.trans (keeps_set t (.file data) ?_) (keeps_erase _ ?_)⟩ <;> rfl
    | ok renamed =>
      subst hwritten
      have hrenamed := rename_ok hr (node?_set_self (hne _))
      subst hrenamed
      exact .inr ⟨_, rfl, node?_set_self (hne name),
        ((keeps_set t _ (.inl rfl)).trans (keeps_erase _ (.inl rfl))).trans
          (keeps_set _ _ (.inr rfl))⟩

end Tree
end PineTools.Files
