import PineTools.Proofs.Pattern.Readers
import PineTools.Proofs.Text.Splices

/-! Matches of a pattern that always takes a glyph. Looking for it cuts a sequence into glyphs at
which it does not apply and stretches that it takes; the matches stand in order, and replacing them
is a splice. -/
namespace PineTools

namespace Pattern

variable {α β : Type}

/-- The matches stand in the order of the sequence. -/
def Successive (offset : Nat) : List (Match α β) → Prop
  | [] => True
  | m :: ms => offset ≤ m.start ∧ m.start < m.stop ∧ Successive m.stop ms

theorem Successive.weaken {offset offset' : Nat} {ms : List (Match α β)} (h : Successive offset' ms)
    (hle : offset ≤ offset') : Successive offset ms := by
  cases ms with
  | nil => trivial
  | cons m ms => exact ⟨Nat.le_trans hle h.1, h.2⟩

/-- Edits inside matches: none of them touches the next, since all keep off the ends of their
matches, or all off the starts. -/
theorem Successive.ordered {offset length k : Nat} {ms : List (Match α β)}
    (h : Successive offset ms) {f : Match α β → Option Edit} (hf : ∀ m ∈ ms, ∀ e, f m = some e →
      m.start + k ≤ e.start ∧ e.start ≤ e.stop ∧ e.stop < m.stop + k ∧ e.stop ≤ length) :
    Edit.Ordered length (offset + k) (ms.filterMap f) := by
  induction ms generalizing offset with
  | nil => trivial
  | cons m ms ih =>
    obtain ⟨hstart, hstop, hrest⟩ := h
    have hms := ih hrest fun m' hm' => hf m' (List.mem_cons_of_mem m hm')
    cases he : f m with
    | none =>
      rw [List.filterMap_cons_none he]
      exact hms.weaken (by omega)
    | some e =>
      rw [List.filterMap_cons_some he]
      obtain ⟨h₁, h₂, h₃, h₄⟩ := hf m List.mem_cons_self e he
      exact ⟨by omega, h₂, h₄, hms.weaken h₃⟩

theorem fresh_eq_some {r : Reader α β} {before : Option Char} {gs : List α} {v : β × List α} :
    fresh r before gs = some v ↔ (∀ c, before = some c → Text.isWordOrDot c = false) ∧
    r gs = some v := by
  cases before with
  | none => simp [fresh]
  | some c =>
    cases h : Text.isWordOrDot c with
    | true => simp [fresh, h, Reader.failure_eq_none]
    | false => simp [fresh, h]

variable [Glyph α]

def passed (before : Option Char) : List α → Option Char
  | [] => before
  | g :: gs => passed (some (Glyph.seen g)) gs

theorem passed_append (before : Option Char) (a b : List α) :
    passed before (a ++ b) = passed (passed before a) b := by
  induction a generalizing before with
  | nil => rfl
  | cons g a ih => exact ih (some (Glyph.seen g))

theorem passed_none (a : List α) : passed none a = a.getLast?.map Glyph.seen := by
  rcases List.eq_nil_or_concat a with rfl | ⟨init, g, rfl⟩
  · rfl
  · rw [List.concat_eq_append, passed_append, List.getLast?_concat]
    rfl

/-- Where the pattern applies it takes some glyphs from the front. -/
def Advances (p : Pattern α β) : Prop :=
  ∀ ⦃before gs v rest⦄, p before gs = some (v, rest) → ∃ taken, taken ≠ [] ∧ gs = taken ++ rest

/-- How a sequence is cut. -/
inductive Segmented (p : Pattern α β) : Option Char → List α → List (Segment α β) → Prop
  | done {before : Option Char} (h : p before [] = none) : Segmented p before [] []
  | plain {before : Option Char} {g : α} {gs : List α} {segs : List (Segment α β)}
  (h : p before (g :: gs) = none)
      (rest : Segmented p (some (Glyph.seen g)) gs segs) :
      Segmented p before (g :: gs) (.plain g :: segs)
  | found {before : Option Char} {taken gs : List α} {v : β} {segs : List (Segment α β)}
  (hne : taken ≠ [])
      (h : p before (taken ++ gs) = some (v, gs))
      (rest : Segmented p (passed before taken) gs segs) :
      Segmented p before (taken ++ gs) (.found taken v :: segs)

theorem segmentsFrom_skip (p : Pattern α β) (before : Option Char) (taken gs : List α) :
    segmentsFrom p before taken.length (taken ++ gs) =
      segmentsFrom p (passed before taken) 0 gs := by
  induction taken generalizing before with
  | nil => rfl
  | cons g taken ih => exact ih (some (Glyph.seen g))

theorem segmented_segmentsFrom {p : Pattern α β} (hp : p.Advances) (before : Option Char)
    (gs : List α) :
    Segmented p before gs (segmentsFrom p before 0 gs) := by
  -- The rest of a match is shorter, not the tail: the induction is on the length.
  induction hn : gs.length using Nat.strongRecOn generalizing before gs with
  | _ n ih =>
    cases gs with
    | nil =>
      cases h : p before [] with
      | none =>
        simp only [segmentsFrom, h]
        exact .done h
      | some r =>
        obtain ⟨taken, hne, e⟩ := hp h
        exact absurd (List.append_eq_nil_iff.mp e.symm).1 hne
    | cons g gs =>
      cases h : p before (g :: gs) with
      | none =>
        simp only [segmentsFrom, h]
        exact .plain h (ih gs.length (by rw [← hn, List.length_cons]; omega) _ gs rfl)
      | some r =>
        obtain ⟨v, rest⟩ := r
        obtain ⟨taken, hne, e⟩ := hp h
        cases taken with
        | nil => exact absurd rfl hne
        | cons g' taken =>
          rw [List.cons_append, List.cons.injEq] at e
          obtain ⟨rfl, rfl⟩ := e
          have hlen : (taken ++ rest).length + 1 - rest.length = taken.length + 1 := by
            rw [List.length_append]
            omega
          simp only [segmentsFrom, h, hlen, List.take_left, segmentsFrom_skip]
          exact .found hne h
            (ih rest.length (by rw [← hn, List.length_cons, List.length_append]; omega) _ rest rfl)

theorem segmented_segments {p : Pattern α β} (hp : p.Advances) (gs : List α) :
    Segmented p none gs (p.segments gs) :=
  segmented_segmentsFrom hp none gs

section Segmented

variable {p : Pattern α β} {before : Option Char} {gs : List α} {segs : List (Segment α β)}

theorem Segmented.successive (h : Segmented p before gs segs) (offset : Nat) :
    Successive offset (matchesFrom offset segs) := by
  induction h generalizing offset with
  | done h => trivial
  | plain h rest ih => exact (ih (offset + 1)).weaken (Nat.le_succ offset)
  | found hne h rest ih =>
    refine ⟨Nat.le_refl offset, ?_, ih _⟩
    exact Nat.lt_add_of_pos_right (List.length_pos_iff.mpr hne)

theorem Segmented.applies (h : Segmented p before gs segs) (offset : Nat) :
    ∀ m ∈ matchesFrom offset segs, ∃ a rest, gs = a ++ (m.glyphs ++ rest) ∧ m.start =
      offset + a.length ∧
      p (passed before a) (m.glyphs ++ rest) = some (m.value, rest) := by
  induction h generalizing offset with
  | done h =>
    intro m hm
    cases hm
  | @plain before g gs segs h rest ih =>
    intro m hm
    obtain ⟨a, rest', e, hstart, happ⟩ := ih (offset + 1) m hm
    refine ⟨g :: a, rest', by rw [e, List.cons_append], ?_, happ⟩
    rw [hstart, List.length_cons]
    omega
  | @found before taken gs v segs hne h rest ih =>
    intro m hm
    rcases List.mem_cons.mp hm with rfl | hm
    · exact ⟨[], gs, rfl, rfl, h⟩
    · obtain ⟨a, rest', e, hstart, happ⟩ := ih _ m hm
      refine ⟨taken ++ a, rest', by rw [e, List.append_assoc], ?_, ?_⟩
      · rw [hstart, List.length_append, Nat.add_assoc]
      · rw [passed_append]
        exact happ

theorem Segmented.ordered (h : Segmented p before gs segs) (hp : ∀ ⦃before gs v rest⦄, p before gs =
    some (v, rest) →
    ∀ before', p before' rest = none) (offset : Nat) (replacement : Match α β → Text) :
    Edit.Ordered (offset + gs.length) offset ((matchesFrom offset segs).map fun m =>
      ⟨m.start, m.stop, replacement m⟩) ∧
      (p before gs = none → Edit.Ordered (offset + gs.length) (offset + 1)
        ((matchesFrom offset segs).map fun m => ⟨m.start, m.stop, replacement m⟩)) := by
  induction h generalizing offset with
  | done h => exact ⟨trivial, fun _ => trivial⟩
  | @plain before g gs segs h rest ih =>
    have hlen : offset + (g :: gs).length = offset + 1 + gs.length := by
      rw [List.length_cons]
      omega
    rw [hlen]
    exact ⟨(ih (offset + 1)).1.weaken (Nat.le_succ offset), fun _ => (ih (offset + 1)).1⟩
  | @found before taken gs v segs hne h rest ih =>
    have hlen : offset + (taken ++ gs).length = offset + taken.length + gs.length := by
      rw [List.length_append, Nat.add_assoc]
    rw [hlen]
    refine ⟨⟨Nat.le_refl _, Nat.le_add_right .., Nat.le_add_right .., (ih _).2 (hp h _)⟩,
      fun e => ?_⟩
    rw [h] at e
    cases e

theorem Segmented.rebuild_eq (h : Segmented p before gs segs) (written : α → Char)
    (replacement : List α → β → Text) (done : Text) :
    (rebuild written replacement none segs).1 = Edit.splice (done ++ gs.map written) done.length
        ((matchesFrom done.length segs).map fun m =>
          ⟨m.start, m.stop, replacement m.glyphs m.value⟩) ∧
      (rebuild written replacement none segs).2 = (matchesFrom done.length segs).length := by
  induction h generalizing done with
  | done h => exact ⟨(List.drop_left' rfl).symm, rfl⟩
  | @plain before g gs segs h rest ih =>
    obtain ⟨htext, hcount⟩ := ih (done ++ [written g])
    rw [List.length_append, List.length_singleton] at htext hcount
    refine ⟨?_, hcount⟩
    have hdrop : (done ++ (g :: gs).map written).drop done.length = written g :: gs.map written :=
      List.drop_left' rfl
    have hlater : ∀ e, ((matchesFrom (done.length + 1) segs).map fun m =>
        (⟨m.start, m.stop, replacement m.glyphs m.value⟩ : Edit)).head? = some e →
        done.length < e.start := by
      have hsucc := rest.successive (done.length + 1)
      cases hms : matchesFrom (done.length + 1) segs with
      | nil =>
        intro e he
        cases he
      | cons m ms =>
        rw [hms] at hsucc
        intro e he
        cases he
        exact hsucc.1
    rw [matchesFrom, Edit.splice_cons hdrop hlater, List.map_cons, List.append_cons, ← htext]
    rfl
  | @found before taken gs v segs hne h rest ih =>
    obtain ⟨htext, hcount⟩ := ih (done ++ taken.map written)
    rw [List.length_append, List.length_map] at htext hcount
    refine ⟨?_, congrArg (· + 1) hcount⟩
    rw [rebuild, matchesFrom, List.map_cons, Edit.splice, Match.stop]
    · have hslice :
          Text.slice (done ++ (taken ++ gs).map written) done.length done.length = [] := by
        rw [Text.slice, List.drop_take, Nat.sub_self, List.take_zero]
      rw [hslice, List.nil_append, List.map_append, ← List.append_assoc done, ← htext]
      rfl
    · intro e
      cases e

end Segmented

/-- What a match says about the whole sequence. -/
theorem applies_of_mem_findAll {p : Pattern α β} (hp : p.Advances) {gs : List α} {m : Match α β}
    (hm : m ∈ p.findAll gs) :
    ∃ a rest, gs = a ++ (m.glyphs ++ rest) ∧ m.start = a.length ∧
      p (passed none a) (m.glyphs ++ rest) = some (m.value, rest) := by
  obtain ⟨a, rest, e, hstart, h⟩ := (segmented_segments hp gs).applies 0 m hm
  exact ⟨a, rest, e, by rw [hstart, Nat.zero_add], h⟩

theorem successive_findAll {p : Pattern α β} (hp : p.Advances) (gs : List α) :
    Successive 0 (p.findAll gs) :=
  (segmented_segments hp gs).successive 0

end Pattern

end PineTools
