import PineTools.Proofs.Pattern.Halting
import PineTools.Proofs.Pattern.Matches

namespace PineTools

namespace Reader

variable {α β γ : Type}

def Trims (r : Reader α β) : Prop := ∀ ⦃gs v rest⦄, r gs = some (v, rest) → ∃ taken, gs =
    taken ++ rest

/-- The reader takes at least one glyph from the front. -/
def Eats (r : Reader α β) : Prop := ∀ ⦃gs v rest⦄, r gs = some (v, rest) → ∃ taken, taken ≠ [] ∧
    gs = taken ++ rest

theorem Eats.trims {r : Reader α β} (h : Eats r) : Trims r := fun _ _ _ e =>
  let ⟨taken, _, htaken⟩ := h e
  ⟨taken, htaken⟩

theorem trims_pure (b : β) : Trims (pure b : Reader α β) := by
  intro gs v rest h
  cases pure_eq_some.mp h
  exact ⟨[], rfl⟩

theorem eats_failure : Eats (failure : Reader α β) := by
  intro gs v rest h
  cases h

theorem Trims.bind {x : Reader α β} (hx : Trims x) {f : β → Reader α γ} (hf : ∀ b, Trims (f b)) :
    Trims (x >>= f) := by
  intro gs v rest h
  obtain ⟨b, rest', hb, hv⟩ := bind_eq_some.mp h
  obtain ⟨taken, rfl⟩ := hx hb
  obtain ⟨taken', rfl⟩ := hf b hv
  exact ⟨taken ++ taken', (List.append_assoc ..).symm⟩

theorem Eats.bind {x : Reader α β} (hx : Eats x) {f : β → Reader α γ} (hf : ∀ b, Trims (f b)) :
    Eats (x >>= f) := by
  intro gs v rest h
  obtain ⟨b, rest', hb, hv⟩ := bind_eq_some.mp h
  obtain ⟨taken, hne, rfl⟩ := hx hb
  obtain ⟨taken', rfl⟩ := hf b hv
  exact ⟨taken ++ taken', List.append_ne_nil_of_left_ne_nil hne _, (List.append_assoc ..).symm⟩

theorem Trims.bind_eats {x : Reader α β} (hx : Trims x) {f : β → Reader α γ}
    (hf : ∀ b, Eats (f b)) : Eats (x >>= f) := by
  intro gs v rest h
  obtain ⟨b, rest', hb, hv⟩ := bind_eq_some.mp h
  obtain ⟨taken, rfl⟩ := hx hb
  obtain ⟨taken', hne, rfl⟩ := hf b hv
  exact ⟨taken ++ taken', List.append_ne_nil_of_right_ne_nil _ hne, (List.append_assoc ..).symm⟩

theorem Trims.discard {x : Reader α β} (hx : Trims x) :
    Trims (discard x : Reader α Unit) := hx.bind fun _ => trims_pure ()

theorem Eats.discard {x : Reader α β} (hx : Eats x) :
    Eats (discard x : Reader α Unit) := hx.bind fun _ => trims_pure ()

theorem Trims.orElse {x y : Reader α β} (hx : Trims x) (hy : Trims y) : Trims (x <|> y) := by
  intro gs v rest h
  rcases orElse_eq_some.mp h with h | ⟨-, h⟩
  · exact hx h
  · exact hy h

theorem eats_firstOf {xs : List (Reader α β)} (h : ∀ x ∈ xs, Eats x) : Eats (firstOf xs) := by
  intro gs v rest e
  obtain ⟨x, hx, e⟩ := firstOf_eq_some e
  exact h x hx e

theorem trims_ahead (x : Reader α β) : Trims (ahead x) := by
  intro gs v rest h
  cases (ahead_eq_some.mp h).2
  exact ⟨[], rfl⟩

theorem trims_notAhead (x : Reader α β) : Trims (notAhead x) := by
  intro gs v rest h
  cases (notAhead_eq_some.mp h).2
  exact ⟨[], rfl⟩

theorem trims_guard (p : Prop) [Decidable p] : Trims (guard p : Reader α Unit) := by
  intro gs v rest h
  cases (guard_eq_some.mp h).2
  exact ⟨[], rfl⟩

theorem Eats.nil {x : Reader α β} (hx : Eats x) : x [] = none := by
  refine Option.eq_none_iff_forall_ne_some.mpr fun p hp => ?_
  obtain ⟨taken, hne, htaken⟩ := hx hp
  exact hne (List.append_eq_nil_iff.mp htaken.symm).1

theorem Eats.upTo_nil {x : Reader α β} (hx : Eats x) (n : Nat) : upTo x n [] = some ([], []) := by
  cases n with
  | zero => rfl
  | succ n =>
    change ((x []).bind _ <|> some ([], [])) = some ([], [])
    rw [hx.nil]
    rfl

/-- A reader that takes a glyph each time is repeated no more often than there are glyphs. -/
theorem upTo_eq_of_le {x : Reader α β} (hx : Eats x) {n m : Nat} {gs : List α} (hn : gs.length ≤ n)
    (hm : gs.length ≤ m) :
    upTo x n gs = upTo x m gs := by
  induction n generalizing m gs with
  | zero =>
    obtain rfl := List.length_eq_zero_iff.mp (Nat.le_zero.mp hn)
    rw [hx.upTo_nil, hx.upTo_nil]
  | succ n ih =>
    cases m with
    | zero =>
      obtain rfl := List.length_eq_zero_iff.mp (Nat.le_zero.mp hm)
      rw [hx.upTo_nil, hx.upTo_nil]
    | succ m =>
      change ((x gs).bind (fun p => (upTo x n >>= fun bs => pure (p.1 :: bs)) p.2) <|>
        some ([], gs)) =
        ((x gs).bind (fun p => (upTo x m >>= fun bs => pure (p.1 :: bs)) p.2) <|> some ([], gs))
      refine congrArg (· <|> some ([], gs)) (Option.bind_congr fun p hp => ?_)
      obtain ⟨taken, hne, rfl⟩ := hx hp
      have htaken := List.length_pos_iff.mpr hne
      rw [List.length_append] at hn hm
      change (upTo x n p.2).bind _ = (upTo x m p.2).bind _
      rw [@ih m p.2 (by omega) (by omega)]

variable [Glyph α]

theorem HaltsAt.many {c : Char} {x : Reader α β} (hx : HaltsAt c x) (heats : Eats x) :
    HaltsAt c (many x) := by
  intro gs g rest hg
  change Reader.upTo x (gs ++ g :: rest).length (gs ++ g :: rest) =
    (Reader.upTo x gs.length gs).map _
  rw [hx.upTo _ gs g rest hg, upTo_eq_of_le heats (by simp) (Nat.le_refl gs.length)]

theorem eats_one (p : Char → Bool) : Eats (one p : Reader α α) := by
  intro gs v rest h
  obtain ⟨rfl, -⟩ := one_eq_some.mp h
  exact ⟨[v], List.cons_ne_nil _ _, rfl⟩

theorem trims_run (p : Char → Bool) :
    Trims (run p : Reader α (List α)) := fun _ v _ h => ⟨v, (takes_run p h).1⟩

theorem eats_run1 (p : Char → Bool) : Eats (run1 p : Reader α (List α)) := fun _ v _ h =>
  ⟨v, (run1_eq_some.mp h).1, (takes_run1 p h).1⟩

theorem eats_name : Eats (name : Reader α (List α)) :=
  (eats_one _).bind fun _ => (trims_run _).bind fun _ => trims_pure _

theorem eats_exactly {w : Text} (hw : w ≠ []) : Eats (exactly w : Reader α (List α)) := by
  intro gs v rest h
  obtain ⟨e, hseen⟩ := exactly_eq_some.mp h
  refine ⟨v, ?_, e⟩
  rintro rfl
  exact hw hseen.symm

end Reader

namespace Pattern

variable {α β : Type} {r : Reader α β}

theorem advances_atLineStart (h : Reader.Eats r) : (atLineStart r).Advances := by
  intro before gs v rest e
  cases before with
  | none => exact h e
  | some c =>
    rw [atLineStart] at e
    split at e
    · exact h e
    · cases e

theorem advances_fresh (h : Reader.Eats r) :
    (fresh r).Advances := fun _ _ _ _ e => h (fresh_eq_some.mp e).2

end Pattern

end PineTools
