import PineTools.Proofs.Pattern.Readers

namespace PineTools.Reader

variable {α β γ : Type} [Glyph α] {c : Char}

/-- The reader never takes the character, and reads what stands before it as it would read that
alone. -/
def HaltsAt (c : Char) (r : Reader α β) : Prop :=
  ∀ gs g rest, Glyph.seen g = c → r (gs ++ g :: rest) = (r gs).map fun p => (p.1, p.2 ++ g :: rest)

theorem HaltsAt.isSome {r : Reader α β} (h : HaltsAt c r) (gs : List α) {g : α}
    (hg : Glyph.seen g = c) (rest : List α) :
    (r (gs ++ g :: rest)).isSome = (r gs).isSome := by
  rw [h gs g rest hg, Option.isSome_map]

theorem haltsAt_pure (b : β) : HaltsAt c (pure b : Reader α β) := fun _ _ _ _ => rfl

theorem haltsAt_failure : HaltsAt c (failure : Reader α β) := fun _ _ _ _ => rfl

theorem haltsAt_run {p : Char → Bool} (hp : p c = false) :
    HaltsAt c (run p : Reader α (List α)) := by
  intro gs g rest hg
  have hstop : p (Glyph.seen g) = false := hg ▸ hp
  have htake : (gs ++ g :: rest).takeWhile (fun g => p (Glyph.seen g)) =
    gs.takeWhile (fun g => p (Glyph.seen g)) ∧
      (gs ++ g :: rest).dropWhile (fun g => p (Glyph.seen g)) =
        gs.dropWhile (fun g => p (Glyph.seen g)) ++ g :: rest := by
    induction gs with
    | nil => simp [hstop]
    | cons d ds ih =>
      cases hd : p (Glyph.seen d) with
      | true => simp [hd, ih.1, ih.2]
      | false => simp [hd]
  exact congrArg some (Prod.ext htake.1 htake.2)

theorem haltsAt_one {p : Char → Bool} (hp : p c = false) : HaltsAt c (one p : Reader α α) := by
  intro gs g rest hg
  cases gs with
  | nil =>
    have hstop : p (Glyph.seen g) = false := hg ▸ hp
    exact if_neg (by simp [hstop])
  | cons d ds =>
    rw [List.cons_append, one, one]
    split <;> rfl

theorem HaltsAt.bind {x : Reader α β} (hx : HaltsAt c x) {f : β → Reader α γ}
    (hf : ∀ b, HaltsAt c (f b)) :
    HaltsAt c (x >>= f) := by
  intro gs g rest hg
  change (x (gs ++ g :: rest)).bind (fun p => f p.1 p.2) = ((x gs).bind fun p => f p.1 p.2).map _
  rw [hx gs g rest hg]
  cases x gs with
  | none => rfl
  | some p => exact hf p.1 p.2 g rest hg

theorem HaltsAt.discard {x : Reader α β} (hx : HaltsAt c x) :
    HaltsAt c (discard x : Reader α Unit) :=
  HaltsAt.bind hx fun _ => haltsAt_pure ()

theorem HaltsAt.orElse {x y : Reader α β} (hx : HaltsAt c x) (hy : HaltsAt c y) :
    HaltsAt c (x <|> y) := by
  intro gs g rest hg
  change (x (gs ++ g :: rest) <|> y (gs ++ g :: rest)) = (x gs <|> y gs).map _
  rw [hx gs g rest hg, hy gs g rest hg]
  cases x gs <;> rfl

theorem HaltsAt.map {x : Reader α β} (hx : HaltsAt c x) (f : β → γ) :
    HaltsAt c (f <$> x) := hx.bind fun b => haltsAt_pure (f b)

theorem HaltsAt.optional {x : Reader α β} (hx : HaltsAt c x) :
    HaltsAt c (optional x) := (hx.map some).orElse (haltsAt_pure none)

theorem HaltsAt.upTo {x : Reader α β} (hx : HaltsAt c x) (fuel : Nat) :
    HaltsAt c (upTo x fuel) := by
  induction fuel with
  | zero => exact haltsAt_pure []
  | succ fuel ih =>
    exact (hx.bind fun b => ih.bind fun bs => haltsAt_pure (b :: bs)).orElse (haltsAt_pure [])

theorem haltsAt_firstOf {rs : List (Reader α β)} (h : ∀ r ∈ rs, HaltsAt c r) :
    HaltsAt c (firstOf rs) := by
  induction rs with
  | nil => exact haltsAt_failure
  | cons r rs ih =>
    obtain ⟨hr, hrs⟩ := List.forall_mem_cons.mp h
    exact hr.orElse (ih hrs)

theorem haltsAt_guard (p : Prop) [Decidable p] : HaltsAt c (guard p : Reader α Unit) := by
  by_cases h : p
  · have hpure : (guard p : Reader α Unit) = pure () := if_pos h
    rw [hpure]
    exact haltsAt_pure ()
  · have hfail : (guard p : Reader α Unit) = failure := if_neg h
    rw [hfail]
    exact haltsAt_failure

theorem haltsAt_run1 {p : Char → Bool} (hp : p c = false) :
    HaltsAt c (run1 p : Reader α (List α)) :=
  (haltsAt_run hp).bind fun _ => (haltsAt_guard _).bind fun _ => haltsAt_pure _

theorem haltsAt_name (hc : Text.isNameStart c = false) (hc' : Text.isWord c = false) :
    HaltsAt c (name : Reader α (List α)) :=
  (haltsAt_one hc).bind fun _ => (haltsAt_run hc').bind fun _ => haltsAt_pure _

theorem haltsAt_exactly {w : Text} (hw : c ∉ w) : HaltsAt c (exactly w : Reader α (List α)) := by
  induction w with
  | nil => exact haltsAt_pure []
  | cons d ds ih =>
    have hd : HaltsAt c (one (· == d) : Reader α α) :=
      haltsAt_one (beq_false_of_ne fun e => hw (e ▸ List.mem_cons_self))
    exact hd.bind fun g => (ih fun k => hw (List.mem_cons_of_mem d k)).bind fun gs =>
      haltsAt_pure (g :: gs)

theorem haltsAt_ahead {x : Reader α β} (hx : HaltsAt c x) : HaltsAt c (ahead x) := by
  intro gs g rest hg
  rw [ahead, ahead, hx gs g rest hg]
  cases x gs <;> rfl

theorem haltsAt_notAhead {x : Reader α β} (hx : HaltsAt c x) : HaltsAt c (notAhead x) := by
  intro gs g rest hg
  rw [notAhead, notAhead, hx gs g rest hg]
  cases x gs <;> rfl

/-- The reader takes the character as the first glyph at most, and halts at it from then on. -/
def HaltsBehind (c : Char) (r : Reader α β) : Prop :=
  ∀ g gs h rest, Glyph.seen h = c → r (g :: (gs ++ h :: rest)) = (r (g :: gs)).map fun p =>
    (p.1, p.2 ++ h :: rest)

theorem HaltsAt.behind {r : Reader α β} (hr : HaltsAt c r) :
    HaltsBehind c r := fun g gs h rest hh => hr (g :: gs) h rest hh

theorem haltsBehind_one {p : Char → Bool} {f : α → Reader α β} (hf : ∀ g, HaltsAt c (f g)) :
    HaltsBehind c (one p >>= f) := by
  intro g gs h rest hh
  change (one p (g :: (gs ++ h :: rest))).bind (fun q => f q.1 q.2) =
    ((one p (g :: gs)).bind fun q => f q.1 q.2).map _
  rw [one, one]
  by_cases hp : p (Glyph.seen g) = true
  · rw [if_pos hp, if_pos hp]
    exact hf g gs h rest hh
  · rw [if_neg hp, if_neg hp]
    rfl

theorem HaltsBehind.orElse {x y : Reader α β} (hx : HaltsBehind c x) (hy : HaltsBehind c y) :
    HaltsBehind c (x <|> y) := by
  intro g gs h rest hh
  change (x (g :: (gs ++ h :: rest)) <|> y (g :: (gs ++ h :: rest))) =
    (x (g :: gs) <|> y (g :: gs)).map _
  rw [hx g gs h rest hh, hy g gs h rest hh]
  cases x (g :: gs) <;> rfl

theorem haltsBehind_firstOf {rs : List (Reader α β)} (h : ∀ r ∈ rs, HaltsBehind c r) :
    HaltsBehind c (firstOf rs) := by
  induction rs with
  | nil => exact haltsAt_failure.behind
  | cons r rs ih =>
    obtain ⟨hr, hrs⟩ := List.forall_mem_cons.mp h
    exact hr.orElse (ih hrs)

theorem haltsBehind_exactly {w : Text} (hw : c ∉ w.tail) :
    HaltsBehind c (exactly w : Reader α (List α)) := by
  cases w with
  | nil => exact (haltsAt_pure []).behind
  | cons d ds => exact haltsBehind_one fun g =>
    (haltsAt_exactly hw).bind fun gs => haltsAt_pure (g :: gs)

end PineTools.Reader
