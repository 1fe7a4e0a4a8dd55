import PineTools.Pattern.Basic

namespace PineTools.Reader

variable {α β γ : Type}

theorem bind_eq_some {x : Reader α β} {f : β → Reader α γ} {gs : List α} {r : γ × List α} :
    (x >>= f) gs = some r ↔ ∃ b rest, x gs = some (b, rest) ∧ f b rest = some r := by
  change (x gs).bind (fun p => f p.1 p.2) = some r ↔ _
  rw [Option.bind_eq_some_iff]
  exact ⟨fun ⟨p, hp, hf⟩ => ⟨p.1, p.2, hp, hf⟩, fun ⟨b, rest, hp, hf⟩ => ⟨(b, rest), hp, hf⟩⟩

theorem pure_eq_some {b : β} {gs : List α} {r : β × List α} :
    (pure b : Reader α β) gs = some r ↔ r = (b, gs) := by
  change some (b, gs) = some r ↔ _
  rw [Option.some_inj]
  exact eq_comm

theorem failure_eq_none (gs : List α) : (failure : Reader α β) gs = none := rfl

theorem orElse_eq_some {x y : Reader α β} {gs : List α} {r : β × List α} :
    (x <|> y) gs = some r ↔ x gs = some r ∨ x gs = none ∧ y gs = some r := by
  change (x gs <|> y gs) = some r ↔ _
  cases h : x gs with
  | none => simp
  | some p => simp

theorem orElse_eq_none {x y : Reader α β} {gs : List α} :
    (x <|> y) gs = none ↔ x gs = none ∧ y gs = none := by
  change (x gs <|> y gs) = none ↔ _
  cases h : x gs with
  | none => simp
  | some p => simp

theorem guard_eq_some {p : Prop} [Decidable p] {gs : List α} {r : Unit × List α} :
    (guard p : Reader α Unit) gs = some r ↔ p ∧ r = ((), gs) := by
  by_cases h : p
  · have hpure : (guard p : Reader α Unit) = pure () := if_pos h
    rw [hpure, pure_eq_some]
    exact (and_iff_right h).symm
  · have hfail : (guard p : Reader α Unit) = failure := if_neg h
    rw [hfail, failure_eq_none]
    simp [h]

theorem discard_eq_some {x : Reader α β} {gs : List α} {r : Unit × List α} :
    (discard x : Reader α Unit) gs = some r ↔ ∃ b rest, x gs = some (b, rest) ∧ r = ((), rest) := by
  change (x gs).bind (fun p => some ((), p.2)) = some r ↔ _
  rw [Option.bind_eq_some_iff]
  exact ⟨fun ⟨p, hp, hr⟩ => ⟨p.1, p.2, hp, (Option.some_inj.mp hr).symm⟩,
    fun ⟨b, rest, hp, hr⟩ => ⟨(b, rest), hp, congrArg some hr.symm⟩⟩

theorem discard_bind_eq_some {x : Reader α β} {f : Unit → Reader α γ} {gs : List α}
    {r : γ × List α} :
    (discard x >>= f) gs = some r ↔ ∃ b rest, x gs = some (b, rest) ∧ f () rest = some r := by
  rw [bind_eq_some]
  constructor
  · rintro ⟨u, rest, hx, hf⟩
    obtain ⟨b, rest', hx, e⟩ := discard_eq_some.mp hx
    cases e
    exact ⟨b, rest, hx, hf⟩
  · rintro ⟨b, rest, hx, hf⟩
    exact ⟨(), rest, discard_eq_some.mpr ⟨b, rest, hx, rfl⟩, hf⟩

theorem map_eq_some {x : Reader α β} {f : β → γ} {gs : List α} {r : γ × List α} :
    (f <$> x) gs = some r ↔ ∃ b rest, x gs = some (b, rest) ∧ r = (f b, rest) := by
  change (x gs).bind (fun p => some (f p.1, p.2)) = some r ↔ _
  rw [Option.bind_eq_some_iff]
  exact ⟨fun ⟨p, hp, hr⟩ => ⟨p.1, p.2, hp, (Option.some_inj.mp hr).symm⟩,
    fun ⟨b, rest, hp, hr⟩ => ⟨(b, rest), hp, congrArg some hr.symm⟩⟩

theorem optional_eq_some {x : Reader α β} {gs : List α} {r : Option β × List α} :
    (optional x) gs = some r ↔
      (∃ b rest, x gs = some (b, rest) ∧ r = (some b, rest)) ∨ x gs = none ∧ r = (none, gs) := by
  rw [optional, orElse_eq_some, map_eq_some, pure_eq_some]
  refine or_congr_right (and_congr_left fun _ => ?_)
  change (x gs).bind _ = none ↔ _
  cases x gs <;> simp

theorem firstOf_eq_some {rs : List (Reader α β)} {gs : List α} {r : β × List α} :
    firstOf rs gs = some r → ∃ x ∈ rs, x gs = some r := by
  induction rs with
  | nil =>
    intro h
    cases h
  | cons x rs ih =>
    intro h
    rcases orElse_eq_some.mp h with h | ⟨-, h⟩
    · exact ⟨x, List.mem_cons_self, h⟩
    · obtain ⟨y, hy, e⟩ := ih h
      exact ⟨y, List.mem_cons_of_mem x hy, e⟩

theorem firstOf_eq_none {rs : List (Reader α β)} {gs : List α} :
    firstOf rs gs = none ↔ ∀ x ∈ rs, x gs = none := by
  induction rs with
  | nil => exact ⟨fun _ x hx => absurd hx List.not_mem_nil, fun _ => rfl⟩
  | cons x rs ih => rw [firstOf, orElse_eq_none, ih, List.forall_mem_cons]

theorem ahead_eq_some {x : Reader α β} {gs : List α} {r : Unit × List α} :
    ahead x gs = some r ↔ (x gs).isSome = true ∧ r = ((), gs) := by
  rw [ahead]
  cases x gs with
  | none => simp
  | some p => simp [eq_comm]

theorem notAhead_eq_some {x : Reader α β} {gs : List α} {r : Unit × List α} :
    notAhead x gs = some r ↔ x gs = none ∧ r = ((), gs) := by
  rw [notAhead]
  cases x gs with
  | none => simp [eq_comm]
  | some p => simp

variable [Glyph α]

theorem run_eq_some {p : Char → Bool} {gs v rest : List α} :
    run p gs = some (v, rest) ↔
      v = gs.takeWhile (fun g => p (Glyph.seen g)) ∧
      rest = gs.dropWhile (fun g => p (Glyph.seen g)) := by
  rw [run, Option.some_inj, Prod.mk.injEq]
  exact and_congr eq_comm eq_comm

theorem run_append {p : Char → Bool} {v : List α} (hv : ∀ g ∈ v, p (Glyph.seen g) = true)
    {rest : List α} (hrest : ∀ g, rest.head? = some g → p (Glyph.seen g) = false) :
    run p (v ++ rest) = some (v, rest) := by
  refine run_eq_some.mpr ⟨?_, ?_⟩
  · rw [List.takeWhile_append_of_pos hv]
    cases rest with
    | nil => exact (List.append_nil v).symm
    | cons g rest => rw [List.takeWhile_cons, hrest g rfl, if_neg Bool.false_ne_true,
        List.append_nil]
  · rw [List.dropWhile_append_of_pos hv]
    cases rest with
    | nil => rfl
    | cons g rest => rw [List.dropWhile_cons, hrest g rfl, if_neg Bool.false_ne_true]

theorem run1_eq_some {p : Char → Bool} {gs v rest : List α} :
    run1 p gs = some (v, rest) ↔ v ≠ [] ∧ run p gs = some (v, rest) := by
  rw [run1, bind_eq_some]
  constructor
  · rintro ⟨b, rest', hr, h⟩
    obtain ⟨u, rest'', hg, h⟩ := bind_eq_some.mp h
    obtain ⟨hb, e⟩ := guard_eq_some.mp hg
    cases e
    cases pure_eq_some.mp h
    exact ⟨by simpa using hb, hr⟩
  · rintro ⟨hv, hr⟩
    refine ⟨v, rest, hr, bind_eq_some.mpr ⟨(), rest, guard_eq_some.mpr ⟨by simpa using hv, rfl⟩,
      pure_eq_some.mpr rfl⟩⟩

theorem one_eq_some {p : Char → Bool} {gs rest : List α} {g : α} :
    one p gs = some (g, rest) ↔ gs = g :: rest ∧ p (Glyph.seen g) = true := by
  cases gs with
  | nil => simp [one]
  | cons h hs =>
    rw [one]
    by_cases hp : p (Glyph.seen h) = true
    · simp only [hp, if_true, Option.some_inj, Prod.mk.injEq, List.cons.injEq]
      exact ⟨fun e => ⟨e, e.1 ▸ hp⟩, fun e => e.1⟩
    · simp only [hp, Bool.false_eq_true, if_false]
      constructor
      · intro e
        cases e
      · rintro ⟨e, he⟩
        cases e
        exact absurd he hp

/-- Nothing that satisfies the test follows. -/
theorem endOf_eq_some {p : Char → Bool} {gs : List α} {r : Unit × List α} :
    endOf p gs = some r ↔ (∀ g, gs.head? = some g → p (Glyph.seen g) = false) ∧ r = ((), gs) := by
  rw [endOf, notAhead_eq_some]
  refine and_congr_left fun _ => ?_
  cases gs with
  | nil => exact iff_of_true rfl fun g h => by cases h
  | cons g gs =>
    rw [one]
    cases hp : p (Glyph.seen g) <;> simp [hp]

theorem exactly_eq_some {t : Text} {gs v rest : List α} :
    exactly t gs = some (v, rest) ↔ gs = v ++ rest ∧ seenText v = t := by
  induction t generalizing gs v with
  | nil =>
    rw [exactly, pure_eq_some, Prod.mk.injEq, seenText, List.map_eq_nil_iff]
    constructor
    · rintro ⟨rfl, rfl⟩
      exact ⟨rfl, rfl⟩
    · rintro ⟨rfl, rfl⟩
      exact ⟨rfl, rfl⟩
  | cons c cs ih =>
    rw [exactly, bind_eq_some]
    constructor
    · rintro ⟨g, rest₁, hg, h⟩
      obtain ⟨v', rest₂, hv, h⟩ := bind_eq_some.mp h
      cases pure_eq_some.mp h
      obtain ⟨rfl, hc⟩ := one_eq_some.mp hg
      obtain ⟨rfl, hs⟩ := ih.mp hv
      refine ⟨rfl, ?_⟩
      rw [seenText, List.map_cons, ← seenText, hs, beq_iff_eq.mp hc]
    · rintro ⟨rfl, hs⟩
      cases v with
      | nil => cases hs
      | cons g v =>
        rw [seenText, List.map_cons, List.cons.injEq] at hs
        exact ⟨g, v ++ rest, one_eq_some.mpr ⟨rfl, beq_iff_eq.mpr hs.1⟩,
          bind_eq_some.mpr ⟨v, rest, ih.mpr ⟨rfl, hs.2⟩, pure_eq_some.mpr rfl⟩⟩

/-- The reader returns the glyphs it takes, and all of them satisfy the test. -/
def Takes (p : Char → Bool) (x : Reader α (List α)) : Prop :=
  ∀ ⦃gs v rest : List α⦄, x gs = some (v, rest) → gs = v ++ rest ∧ ∀ g ∈ v, p (Glyph.seen g) = true

theorem takes_run (p : Char → Bool) : Takes p (run p : Reader α (List α)) := by
  intro gs v rest h
  obtain ⟨rfl, rfl⟩ := run_eq_some.mp h
  exact ⟨(List.takeWhile_append_dropWhile).symm, fun g hg =>
    List.all_eq_true.mp List.all_takeWhile g hg⟩

theorem takes_run1 (p : Char → Bool) : Takes p (run1 p : Reader α (List α)) :=
  fun _ _ _ h => takes_run p (run1_eq_some.mp h).2

theorem takes_exactly (t : Text) :
    Takes (fun c => t.contains c) (exactly t : Reader α (List α)) := by
  intro gs v rest h
  obtain ⟨rfl, rfl⟩ := exactly_eq_some.mp h
  refine ⟨rfl, fun g hg => ?_⟩
  rw [List.contains_iff_mem]
  exact List.mem_map_of_mem hg

theorem Takes.mono {p q : Char → Bool} {x : Reader α (List α)} (h : Takes p x)
    (hpq : ∀ c, p c = true → q c = true) :
    Takes q x := fun _ _ _ e => ⟨(h e).1, fun g hg => hpq _ ((h e).2 g hg)⟩

theorem Takes.orElse {p : Char → Bool} {x y : Reader α (List α)} (hx : Takes p x) (hy : Takes p y) :
    Takes p (x <|> y) := by
  intro gs v rest h
  rcases orElse_eq_some.mp h with h | ⟨-, h⟩
  · exact hx h
  · exact hy h

theorem takes_firstOf {p : Char → Bool} {xs : List (Reader α (List α))} (h : ∀ x ∈ xs, Takes p x) :
    Takes p (firstOf xs) := by
  intro gs v rest e
  obtain ⟨x, hx, e⟩ := firstOf_eq_some e
  exact h x hx e

theorem takes_cons {p q : Char → Bool} {x : Reader α (List α)} (hx : Takes p x)
    (hq : ∀ c, q c = true → p c = true) :
    Takes p (do
      let g ← one q
      let gs ← x
      return g :: gs) := by
  intro gs v rest h
  obtain ⟨g, rest₁, hg, h⟩ := bind_eq_some.mp h
  obtain ⟨v', rest₂, hv, h⟩ := bind_eq_some.mp h
  cases pure_eq_some.mp h
  obtain ⟨rfl, hc⟩ := one_eq_some.mp hg
  obtain ⟨rfl, hs⟩ := hx hv
  exact ⟨rfl, List.forall_mem_cons.mpr ⟨hq _ hc, hs⟩⟩

theorem Takes.optional {p : Char → Bool} {x : Reader α (List α)} (hx : Takes p x) {gs rest : List α}
    {b : Option (List α)} (h : (optional x) gs = some (b, rest)) :
    gs = b.getD [] ++ rest ∧ ∀ g ∈ b.getD [], p (Glyph.seen g) = true := by
  rcases optional_eq_some.mp h with ⟨v, rest', hv, e⟩ | ⟨-, e⟩
  · cases e
    exact hx hv
  · cases e
    exact ⟨rfl, List.forall_mem_nil _⟩

theorem takes_upTo {p : Char → Bool} {x : Reader α (List α)} (hx : Takes p x) (fuel : Nat) :
    Takes p (List.flatten <$> upTo x fuel) := by
  induction fuel with
  | zero =>
    intro gs v rest h
    obtain ⟨b, rest', hb, e⟩ := map_eq_some.mp h
    cases pure_eq_some.mp hb
    cases e
    exact ⟨rfl, List.forall_mem_nil _⟩
  | succ fuel ih =>
    intro gs v rest h
    obtain ⟨b, rest', hb, e⟩ := map_eq_some.mp h
    cases e
    rcases orElse_eq_some.mp hb with hb | ⟨-, hb⟩
    · obtain ⟨v₁, rest₁, h₁, hb⟩ := bind_eq_some.mp hb
      obtain ⟨vs, rest₂, h₂, hb⟩ := bind_eq_some.mp hb
      cases pure_eq_some.mp hb
      obtain ⟨rfl, hv₁⟩ := hx h₁
      obtain ⟨rfl, hvs⟩ := ih (map_eq_some.mpr ⟨vs, _, h₂, rfl⟩)
      rw [List.flatten_cons, List.append_assoc]
      exact ⟨rfl, List.forall_mem_append.mpr ⟨hv₁, hvs⟩⟩
    · cases pure_eq_some.mp hb
      exact ⟨rfl, List.forall_mem_nil _⟩

theorem takes_many {p : Char → Bool} {x : Reader α (List α)} (hx : Takes p x) :
    Takes p (List.flatten <$> many x) := by
  intro gs v rest h
  obtain ⟨b, rest', hb, e⟩ := map_eq_some.mp h
  exact takes_upTo hx gs.length (map_eq_some.mpr ⟨b, rest', hb, e⟩)

end PineTools.Reader
