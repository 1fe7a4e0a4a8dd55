import PineTools.Proofs.Pattern.Halting
import PineTools.Proofs.Text.Lines

namespace PineTools

open Reader

namespace Pattern

variable {α β : Type} [Glyph α]

/-- The pattern applies at some place of a sequence. -/
def occursFrom (p : Pattern α β) (before : Option Char) : List α → Bool
  | [] => (p before []).isSome
  | g :: gs => (p before (g :: gs)).isSome || occursFrom p (some (Glyph.seen g)) gs

theorem matchesFrom_isSome (p : Pattern α β) (before : Option Char) (offset : Nat) (gs : List α) :
    (matchesFrom offset (segmentsFrom p before 0 gs)).head?.isSome = occursFrom p before gs := by
  induction gs generalizing before offset with
  | nil =>
    simp only [segmentsFrom, occursFrom]
    cases p before [] <;> rfl
  | cons g gs ih =>
    simp only [segmentsFrom, occursFrom]
    cases p before (g :: gs) with
    | none => exact ih _ _
    | some r =>
      simp only [Option.isSome_some, Bool.true_or]
      split <;> rfl

theorem occursIn_eq (p : Pattern α β) (gs : List α) : p.occursIn gs = occursFrom p none gs :=
  matchesFrom_isSome p none 0 gs

/-- The pattern applies where the rest begins with what it reads, behind the last of the glyphs
before. -/
theorem occursFrom_iff (p : Pattern α β) (before : Option Char) (gs : List α) :
    occursFrom p before gs = true ↔
    ∃ a b, gs = a ++ b ∧ (p ((a.getLast?.map Glyph.seen).or before) b).isSome = true := by
  induction gs generalizing before with
  | nil =>
    refine ⟨fun h => ⟨[], [], rfl, h⟩, ?_⟩
    rintro ⟨a, b, e, h⟩
    obtain ⟨rfl, rfl⟩ := List.append_eq_nil_iff.mp e.symm
    exact h
  | cons g gs ih =>
    have hlast (a : List α) : (((g :: a).getLast?.map Glyph.seen).or before) =
        (a.getLast?.map Glyph.seen).or (some (Glyph.seen g)) := by
      cases a with
      | nil => rfl
      | cons h a => rw [List.getLast?_cons_cons, List.getLast?_cons, Option.map_some,
          Option.some_or, Option.some_or]
    rw [occursFrom, Bool.or_eq_true, ih]
    constructor
    · rintro (h | ⟨a, b, rfl, h⟩)
      · exact ⟨[], g :: gs, rfl, h⟩
      · exact ⟨g :: a, b, rfl, hlast a ▸ h⟩
    · rintro ⟨a, b, e, h⟩
      cases a with
      | nil => exact .inl (e ▸ h)
      | cons g' a =>
        obtain ⟨rfl, rfl⟩ := List.cons.inj e
        exact .inr ⟨a, b, rfl, hlast a ▸ h⟩

variable {r : Reader Char β}

theorem occursFrom_inside (r : Reader Char β) {c : Char} (hc : c ≠ '\n') {l : Text}
    (hl : Text.OneLine l) :
    occursFrom (atLineStart r) (some c) l = false ∧
      ∀ t, occursFrom (atLineStart r) (some c) (l ++ '\n' :: t) =
        occursFrom (atLineStart r) (some '\n') t := by
  have hfail (gs : Text) : (atLineStart r (some c) gs).isSome = false := by
    rw [atLineStart, if_neg hc]
    rfl
  induction l generalizing c with
  | nil =>
    refine ⟨by rw [occursFrom, hfail], fun t => ?_⟩
    rw [List.nil_append, occursFrom, hfail, Bool.false_or]
    rfl
  | cons d ds ih =>
    have hd : d ≠ '\n' := hl.head
    obtain ⟨hend, hmore⟩ := ih hd hl.tail fun gs => by
      rw [atLineStart, if_neg hd]
      rfl
    refine ⟨?_, fun t => ?_⟩
    · rw [occursFrom, hfail, Bool.false_or]
      exact hend
    · rw [List.cons_append, occursFrom, hfail, Bool.false_or]
      exact hmore t

theorem occursFrom_line (hr : HaltsAt '\n' r) {before : Option Char}
    (hb : before = none ∨ before = some '\n') {l : Text} (hl : Text.OneLine l) :
    occursFrom (atLineStart r) before l = (r l).isSome ∧
      ∀ t, occursFrom (atLineStart r) before (l ++ '\n' :: t) =
        ((r l).isSome || occursFrom (atLineStart r) (some '\n') t) := by
  have hstart (gs : Text) : atLineStart r before gs = r gs := by
    rcases hb with rfl | rfl <;> rfl
  have hline (t : Text) : (r (l ++ '\n' :: t)).isSome = (r l).isSome := hr.isSome l rfl t
  cases l with
  | nil =>
    refine ⟨by rw [occursFrom, hstart], fun t => ?_⟩
    rw [← hline t, List.nil_append, occursFrom, hstart]
    rfl
  | cons c cs =>
    have hc : c ≠ '\n' := hl.head
    obtain ⟨hend, hmore⟩ := occursFrom_inside r hc hl.tail
    refine ⟨?_, fun t => ?_⟩
    · rw [occursFrom, hstart]
      exact (congrArg _ hend).trans (Bool.or_false _)
    · rw [← hline t, List.cons_append, occursFrom, hstart]
      exact congrArg _ (hmore t)

theorem occursIn_atLineStart (hr : HaltsAt '\n' r) (t : Text) :
    (atLineStart r : Pattern Char β).occursIn t = (Text.lines t).any fun l => (r l).isSome := by
  suffices ∀ before, before = none ∨ before = some '\n' →
      occursFrom (atLineStart r) before t = (Text.lines t).any fun l => (r l).isSome by
    rw [occursIn_eq]
    exact this none (.inl rfl)
  induction t using Text.lines_induction with
  | last l hl =>
    intro before hb
    rw [(occursFrom_line hr hb hl).1, Text.lines_of_oneLine hl, List.any_cons, List.any_nil,
      Bool.or_false]
  | more l t hl ih =>
    intro before hb
    rw [(occursFrom_line hr hb hl).2, Text.lines_append_newline hl, List.any_cons, ih _ (.inr rfl)]

end Pattern

end PineTools
