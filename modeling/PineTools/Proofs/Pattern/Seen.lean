import PineTools.Construct.Statement

/-! What a pattern finds depends on what the glyphs show. A reader of glyphs goes along with the
same reader of the characters they show, and so do the matches of a pattern: they start at the same
offsets and have the same values. -/
namespace PineTools

variable {α β γ δ ε : Type} [Glyph α]

namespace Reader

/-- Reading glyphs with the one reader is reading the characters they show with the other. -/
def SeesAs (r : Reader α β) (r' : Reader Char γ) (f : β → γ) : Prop :=
  ∀ gs, r' (seenText gs) = (r gs).map fun p => (f p.1, seenText p.2)

theorem seesAs_pure (b : β) (f : β → γ) :
    SeesAs (pure b : Reader α β) (pure (f b)) f := fun _ => rfl

theorem seesAs_failure (f : β → γ) : SeesAs (failure : Reader α β) failure f := fun _ => rfl

theorem SeesAs.bind {r : Reader α β} {r' : Reader Char γ} {f : β → γ} (hr : SeesAs r r' f)
    {k : β → Reader α δ} {k' : γ → Reader Char ε} {g : δ → ε}
    (hk : ∀ b, SeesAs (k b) (k' (f b)) g) : SeesAs (r >>= k) (r' >>= k') g := by
  intro gs
  change (r' (seenText gs)).bind (fun p => k' p.1 p.2) = ((r gs).bind fun p => k p.1 p.2).map _
  rw [hr gs]
  cases h : r gs with
  | none => rfl
  | some p => exact hk p.1 p.2

theorem SeesAs.discard {r : Reader α β} {r' : Reader Char γ} {f : β → γ} (hr : SeesAs r r' f) :
    SeesAs (discard r : Reader α Unit) (discard r') id := by
  intro gs
  change (r' (seenText gs)).bind (fun p => some ((), p.2)) =
    ((r gs).bind fun p => some ((), p.2)).map _
  rw [hr gs]
  cases h : r gs with
  | none => rfl
  | some p => rfl

theorem SeesAs.orElse {r s : Reader α β} {r' s' : Reader Char γ} {f : β → γ} (hr : SeesAs r r' f)
    (hs : SeesAs s s' f) :
    SeesAs (r <|> s) (r' <|> s') f := by
  intro gs
  change (r' (seenText gs) <|> s' (seenText gs)) = (r gs <|> s gs).map _
  rw [hr gs, hs gs]
  cases h : r gs with
  | none => rfl
  | some p => rfl

theorem seesAs_one (p : Char → Bool) : SeesAs (one p : Reader α α) (one p) Glyph.seen := by
  intro gs
  cases gs with
  | nil => rfl
  | cons g gs =>
    change (if p (Glyph.seen g) then some (Glyph.seen g, seenText gs) else none) =
      (if p (Glyph.seen g) then some (g, gs) else none).map _
    split <;> rfl

theorem seesAs_run (p : Char → Bool) : SeesAs (run p : Reader α (List α)) (run p) seenText := by
  intro gs
  change some ((gs.map Glyph.seen).takeWhile p, (gs.map Glyph.seen).dropWhile p) = some _
  rw [List.takeWhile_map, List.dropWhile_map]
  rfl

theorem seesAs_exactly (t : Text) :
    SeesAs (exactly t : Reader α (List α)) (exactly t) seenText := by
  induction t with
  | nil => exact seesAs_pure [] seenText
  | cons c cs ih =>
    exact (seesAs_one _).bind fun g => ih.bind fun gs => seesAs_pure (g :: gs) seenText

theorem seesAs_firstOf {ι : Type} (xs : List ι) {r : ι → Reader α β}
    {r' : ι → Reader Char γ} {f : β → γ} (h : ∀ x, SeesAs (r x) (r' x) f) :
    SeesAs (firstOf (xs.map r)) (firstOf (xs.map r')) f := by
  induction xs with
  | nil => exact seesAs_failure f
  | cons x xs ih => exact (h x).orElse ih

end Reader

namespace Pattern

open Reader

theorem seesAs_atLineStart {r : Reader α β} {r' : Reader Char γ} {f : β → γ} (h : SeesAs r r' f)
    (before : Option Char) :
    SeesAs (atLineStart r before) (atLineStart r' before) f := by
  cases before with
  | none => exact h
  | some c =>
    rw [atLineStart, atLineStart]
    split
    · exact h
    · exact seesAs_failure f

theorem seesAs_fresh {r : Reader α β} {r' : Reader Char γ} {f : β → γ} (h : SeesAs r r' f)
    (before : Option Char) :
    SeesAs (fresh r before) (fresh r' before) f := by
  cases before with
  | none => exact h
  | some c =>
    rw [fresh, fresh]
    split
    · exact seesAs_failure f
    · exact h

end Pattern

def Segment.seen (f : β → γ) : Segment α β → Segment Char γ
  | .plain g => .plain (Glyph.seen g)
  | .found gs value => .found (seenText gs) (f value)

namespace Pattern

variable {p : Pattern α β} {p' : Pattern Char γ} {f : β → γ}
    (h : ∀ before, Reader.SeesAs (p before) (p' before) f)
include h

theorem segmentsFrom_seen (before : Option Char) (skip : Nat) (gs : List α) :
    segmentsFrom p' before skip (seenText gs) = (segmentsFrom p before skip gs).map
      (Segment.seen f) := by
  induction gs generalizing before skip with
  | nil =>
    have hnil : p' before [] = (p before []).map fun r => (f r.1, seenText r.2) := h before []
    change segmentsFrom p' before skip [] = _
    cases skip with
    | succ n => rfl
    | zero =>
      rw [segmentsFrom.eq_def, segmentsFrom.eq_def]
      simp only [hnil]
      cases p before [] with
      | none => rfl
      | some r => rfl
  | cons g gs ih =>
    have hcons : p' before (Glyph.seen g :: seenText gs) = (p before (g :: gs)).map fun r =>
        (f r.1, seenText r.2) :=
      h before (g :: gs)
    change segmentsFrom p' before skip (Glyph.seen g :: seenText gs) = _
    cases skip with
    | succ n => exact ih _ n
    | zero =>
      rw [segmentsFrom.eq_def, segmentsFrom.eq_def p]
      simp only [hcons]
      cases p before (g :: gs) with
      | none => exact congrArg _ (ih _ 0)
      | some r =>
        have hlength : (seenText gs).length + 1 - (seenText r.2).length =
            gs.length + 1 - r.2.length := by
          rw [seenText, List.length_map, seenText, List.length_map]
        simp only [Option.map_some, hlength]
        cases gs.length + 1 - r.2.length with
        | zero => exact congrArg (_ :: _ :: ·) (ih _ 0)
        | succ n =>
          have hglyphs : Glyph.seen g :: (seenText gs).take n = seenText (g :: gs.take n) := by
            rw [seenText, seenText, List.map_cons, List.map_take]
          simp only [List.map_cons, Segment.seen, hglyphs]
          exact congrArg _ (ih _ n)

omit h in
theorem matchesFrom_seen (offset : Nat) (segments : List (Segment α β)) :
    matchesFrom offset (segments.map (Segment.seen f)) =
      (matchesFrom offset segments).map fun m => ⟨m.start, seenText m.glyphs, f m.value⟩ := by
  induction segments generalizing offset with
  | nil => rfl
  | cons segment rest ih =>
    cases segment with
    | plain g => exact ih (offset + 1)
    | found gs value =>
      have hlength : (seenText gs).length = gs.length := List.length_map _
      change _ :: matchesFrom (offset + (seenText gs).length) (rest.map (Segment.seen f)) = _
      rw [hlength, ih]
      rfl

theorem findAll_seen (gs : List α) :
    p'.findAll (seenText gs) = (p.findAll gs).map fun m =>
      ⟨m.start, seenText m.glyphs, f m.value⟩ := by
  rw [findAll, segments, segmentsFrom_seen h, matchesFrom_seen]
  rfl

end Pattern

open Reader in
theorem declaration_seen (before : Option Char) :
    SeesAs (declaration before : Reader α DeclarationCall) (declaration before) id := by
  refine Pattern.seesAs_atLineStart (seesAs_firstOf _ fun call => ?_) before
  refine (seesAs_exactly _).discard.bind fun _ => ?_
  refine (seesAs_run _).discard.bind fun _ => ?_
  exact (seesAs_one _).discard.bind fun _ => seesAs_pure call id

theorem declarations_eq (t : Text) :
    declarations t = (declaration.findAll (mask t)).map fun m =>
      ⟨m.value, Text.lineAt t m.start⟩ := by
  have h := Pattern.findAll_seen (@declaration_seen Cell _) (cells t)
  have hmask : seenText (cells t) = mask t := rfl
  rw [hmask] at h
  rw [h, declarations, List.map_map]
  rfl

end PineTools
