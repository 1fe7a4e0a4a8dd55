import PineTools.Proofs.Pattern.Matches
import PineTools.Proofs.Pattern.Occurrences

/-! Patterns that look at one line at a time. The matches of such a pattern are those of the lines,
one line after the other, so what is found or replaced in a script is found or replaced line by
line. -/
namespace PineTools

open Reader

variable {α β : Type} [Glyph α]

def InLine (gs : List α) : Prop := ∀ g ∈ gs, Glyph.seen g ≠ '\n'

/-- Cuts glyphs at those that show a newline. -/
def cutLines : List α → List (List α)
  | [] => [[]]
  | g :: gs =>
    if Glyph.seen g = '\n' then [] :: cutLines gs
    else
      match cutLines gs with
      | [] => [[g]]
      | l :: ls => (g :: l) :: ls

theorem cutLines_of_inLine {l : List α} (h : InLine l) : cutLines l = [l] := by
  induction l with
  | nil => rfl
  | cons g gs ih =>
    obtain ⟨hg, hgs⟩ := List.forall_mem_cons.mp h
    rw [cutLines, if_neg hg, ih hgs]

theorem cutLines_newline {l : List α} (h : InLine l) {n : α} (hn : Glyph.seen n = '\n')
    (gs : List α) :
    cutLines (l ++ n :: gs) = l :: cutLines gs := by
  induction l with
  | nil => rw [List.nil_append, cutLines, if_pos hn]
  | cons g l ih =>
    obtain ⟨hg, hl⟩ := List.forall_mem_cons.mp h
    rw [List.cons_append, cutLines, if_neg hg, ih hl]

theorem cutLines_induction {motive : List α → Prop} (last : ∀ l, InLine l → motive l)
    (more : ∀ l n gs, InLine l → Glyph.seen n = '\n' → motive gs → motive (l ++ n :: gs))
    (gs : List α) : motive gs := by
  induction hlen : gs.length using Nat.strongRecOn generalizing gs with
  | _ k ih =>
    let inside : α → Bool := fun g => Glyph.seen g != '\n'
    have hline : InLine (gs.takeWhile inside) :=
      fun g hg => bne_iff_ne.mp (List.all_eq_true.mp List.all_takeWhile g hg)
    have hsplit : gs.takeWhile inside ++ gs.dropWhile inside = gs := List.takeWhile_append_dropWhile
    cases hrest : gs.dropWhile inside with
    | nil =>
      rw [hrest, List.append_nil] at hsplit
      rw [← hsplit]
      exact last _ hline
    | cons n rest =>
      have hn : Glyph.seen n = '\n' := by
        have := List.head?_dropWhile_not inside gs
        rw [hrest] at this
        simpa [inside] using this
      rw [hrest] at hsplit
      have hshort : rest.length < k := by
        rw [← hlen, ← hsplit, List.length_append, List.length_cons]
        omega
      rw [← hsplit]
      exact more _ n rest hline hn (ih _ hshort rest rfl)

namespace Pattern

/-- A pattern that takes a glyph wherever it applies, stops at newlines and does not see the line
before. -/
structure LineWise (p : Pattern α β) : Prop where
  advances : p.Advances
  halts : ∀ before, HaltsAt '\n' (p before)
  restarts : p (some '\n') = p none

variable {p : Pattern α β}

omit [Glyph α] in
theorem Advances.at_end (hp : p.Advances) (before : Option Char) : p before [] = none := by
  cases h : p before [] with
  | none => rfl
  | some r =>
    obtain ⟨taken, hne, e⟩ := hp h
    exact absurd (List.append_eq_nil_iff.mp e.symm).1 hne

theorem LineWise.at_newline (hp : p.LineWise) (before : Option Char) {n : α}
    (hn : Glyph.seen n = '\n') (gs : List α) :
    p before (n :: gs) = none := by
  have h := hp.halts before [] n gs hn
  rwa [hp.advances.at_end, Option.map_none] at h

theorem segmentsFrom_found {before : Option Char} {taken gs : List α} {v : β} (hne : taken ≠ [])
    (h : p before (taken ++ gs) = some (v, gs)) :
    segmentsFrom p before 0 (taken ++ gs) = .found taken v :: segmentsFrom p
      (passed before taken) 0 gs := by
  cases taken with
  | nil => exact absurd rfl hne
  | cons g taken =>
    have hlen : (taken ++ gs).length + 1 - gs.length = taken.length + 1 := by
      rw [List.length_append]
      omega
    rw [List.cons_append] at h ⊢
    simp only [segmentsFrom, h, hlen, List.take_left, segmentsFrom_skip]
    rfl

theorem segmentsFrom_plain {before : Option Char} {g : α} {gs : List α}
    (h : p before (g :: gs) = none) :
    segmentsFrom p before 0 (g :: gs) = .plain g :: segmentsFrom p (some (Glyph.seen g)) 0 gs := by
  simp only [segmentsFrom, h]

theorem LineWise.segmentsFrom_restart (hp : p.LineWise) (gs : List α) :
    segmentsFrom p (some '\n') 0 gs = p.segments gs := by
  rw [segments]
  cases gs <;> simp only [segmentsFrom, hp.restarts]

theorem LineWise.segments_newline (hp : p.LineWise) (l : List α) {n : α} (hn : Glyph.seen n = '\n')
    (gs : List α) :
    p.segments (l ++ n :: gs) = p.segments l ++ .plain n :: p.segments gs := by
  suffices ∀ before, segmentsFrom p before 0 (l ++ n :: gs) = segmentsFrom p before 0 l ++
    .plain n :: p.segments gs from
    this none
  intro before
  have hcut := segmented_segmentsFrom hp.advances before l
  generalize segmentsFrom p before 0 l = segs at hcut
  induction hcut with
  | done h =>
    rw [List.nil_append, segmentsFrom_plain (hp.at_newline _ hn gs), hn, hp.segmentsFrom_restart,
      List.nil_append]
  | @plain before g l segs h rest ih =>
    have hmore : p before (g :: (l ++ n :: gs)) = none := by
      rw [← List.cons_append, hp.halts before (g :: l) n gs hn, h]
      rfl
    rw [List.cons_append, segmentsFrom_plain hmore, ih, List.cons_append]
  | @found before taken l v segs hne h rest ih =>
    have hmore : p before (taken ++ (l ++ n :: gs)) = some (v, l ++ n :: gs) := by
      rw [← List.append_assoc, hp.halts before (taken ++ l) n gs hn, h]
      rfl
    rw [List.append_assoc, segmentsFrom_found hne hmore, ih, List.cons_append]

omit [Glyph α] in
theorem matchesFrom_shift (offset : Nat) (segs : List (Segment α β)) :
    matchesFrom offset segs = (matchesFrom 0 segs).map fun m =>
      { m with start := offset + m.start } := by
  induction segs generalizing offset with
  | nil => rfl
  | cons s segs ih =>
    cases s with
    | plain g =>
      rw [matchesFrom, matchesFrom, ih, ih (0 + 1), List.map_map]
      refine List.map_congr_left fun m _ => ?_
      simp only [Function.comp_apply, Nat.zero_add, Nat.add_assoc]
    | found gs v =>
      rw [matchesFrom, matchesFrom, ih, ih (0 + gs.length), List.map_cons, List.map_map]
      refine congrArg (_ :: ·) (List.map_congr_left fun m _ => ?_)
      simp only [Function.comp_apply, Nat.zero_add, Nat.add_assoc]

omit [Glyph α] in
theorem matchesFrom_append (offset : Nat) (a b : List (Segment α β)) :
    matchesFrom offset (a ++ b) = matchesFrom offset a ++
      matchesFrom (offset + (a.flatMap Segment.glyphs).length) b := by
  induction a generalizing offset with
  | nil => rfl
  | cons s a ih =>
    rw [List.flatMap_cons, List.length_append]
    cases s with
    | plain g => rw [List.cons_append, matchesFrom, matchesFrom, ih, Nat.add_assoc]; rfl
    | found gs v => rw [List.cons_append, matchesFrom, matchesFrom, ih, Nat.add_assoc]; rfl

omit [Glyph α] in
theorem matchesFrom_plain (offset : Nat) (gs : List α) :
    matchesFrom offset (gs.map .plain : List (Segment α β)) = [] := by
  induction gs generalizing offset with
  | nil => rfl
  | cons g gs ih => exact ih (offset + 1)

theorem Segmented.glyphs_eq {before : Option Char} {gs : List α} {segs : List (Segment α β)}
    (h : Segmented p before gs segs) : segs.flatMap Segment.glyphs = gs := by
  induction h with
  | done h => rfl
  | plain h rest ih => exact congrArg _ ih
  | found hne h rest ih => exact congrArg _ ih

theorem LineWise.findAll_newline (hp : p.LineWise) (l : List α) {n : α} (hn : Glyph.seen n = '\n')
    (gs : List α) :
    p.findAll (l ++ n :: gs) =
      p.findAll l ++ (p.findAll gs).map fun m => { m with start := l.length + 1 + m.start } := by
  rw [findAll, hp.segments_newline l hn gs, matchesFrom_append,
    (segmented_segments hp.advances l).glyphs_eq, matchesFrom, matchesFrom_shift (0 + l.length + 1),
    Nat.zero_add]
  rfl

theorem LineWise.start_le (hp : p.LineWise) {l : List α} {m : Match α β} (hm : m ∈ p.findAll l) :
    m.start ≤ l.length := by
  obtain ⟨a, rest, e, hstart, -⟩ := applies_of_mem_findAll hp.advances hm
  rw [hstart, e, List.length_append]
  exact Nat.le_add_right _ _

theorem LineWise.forall_findAll_iff (hp : p.LineWise) (P : List α → β → Prop) (gs : List α) :
    (∀ m ∈ p.findAll gs, P m.glyphs m.value) ↔ ∀ l ∈ cutLines gs, ∀ m ∈ p.findAll l,
      P m.glyphs m.value := by
  induction gs using cutLines_induction with
  | last l hl => rw [cutLines_of_inLine hl, List.forall_mem_singleton]
  | more l n gs hl hn ih =>
    rw [cutLines_newline hl hn, hp.findAll_newline l hn, List.forall_mem_cons,
      List.forall_mem_append, List.forall_mem_map, ih]

theorem LineWise.forall_front (hp : p.LineWise) {Q : β → Prop} {gs : List α}
    (h : ∀ m ∈ p.findAll gs, Q m.value) {l : List α} (hl : l ∈ cutLines gs) {v : β} {rest : List α}
    (happ : p none l = some (v, rest)) : Q v := by
  obtain ⟨taken, hne, rfl⟩ := hp.advances happ
  have hfound : ⟨0, taken, v⟩ ∈ p.findAll (taken ++ rest) := by
    rw [findAll, segments, segmentsFrom_found hne happ]
    exact List.mem_cons_self
  exact (hp.forall_findAll_iff (fun _ v => Q v) gs).mp h _ hl _ hfound

/-- The first match with a property stands in the first line that has one. -/
theorem LineWise.find?_line (hp : p.LineWise) (P : List α → β → Bool) (gs : List α) :
    ((p.findAll gs).find? fun m => P m.glyphs m.value).map
      (fun m => (seenText (gs.take m.start)).count '\n') =
      (cutLines gs).findIdx? fun l => (p.findAll l).any fun m => P m.glyphs m.value := by
  have hnone {l : List α} (hl : InLine l) (k : Nat) : (seenText (l.take k)).count '\n' = 0 := by
    rw [List.count_eq_zero]
    intro h
    obtain ⟨g, hg, e⟩ := List.mem_map.mp h
    exact hl g (List.mem_of_mem_take hg) e
  induction gs using cutLines_induction with
  | last l hl =>
    rw [cutLines_of_inLine hl, List.findIdx?_cons, List.findIdx?_nil]
    cases hfind : (p.findAll l).find? fun m => P m.glyphs m.value with
    | none =>
      rw [if_neg (by
        rw [List.any_eq_true]; exact fun ⟨m, hm, h⟩ => by
          simpa [h] using List.find?_eq_none.mp hfind m hm)]
      rfl
    | some m =>
      rw [if_pos (List.any_eq_true.mpr ⟨m, List.mem_of_find?_eq_some hfind,
        (List.find?_eq_some_iff_append.mp hfind).1⟩)]
      rw [Option.map_some, hnone hl]
  | more l n gs hl hn ih =>
    rw [cutLines_newline hl hn, hp.findAll_newline l hn, List.findIdx?_cons, List.find?_append,
      List.find?_map]
    cases hfind : (p.findAll l).find? fun m => P m.glyphs m.value with
    | none =>
      rw [if_neg (by
        rw [List.any_eq_true]; exact fun ⟨m, hm, h⟩ => by
          simpa [h] using List.find?_eq_none.mp hfind m hm)]
      rw [← ih, Option.none_or, Option.map_map, Option.map_map]
      refine congrArg (Option.map · _) (funext fun m => ?_)
      have htake : (l ++ n :: gs).take (l.length + 1 + m.start) = l ++ n :: gs.take m.start := by
        rw [Nat.add_assoc, List.take_length_add_append, Nat.add_comm 1, List.take_succ_cons]
      have hl0 := hnone hl l.length
      rw [List.take_length] at hl0
      simp only [Function.comp_apply, htake, seenText, List.map_append, List.map_cons,
        List.count_append] at hl0 ⊢
      rw [hl0, hn, List.count_cons_self, Nat.zero_add]
    | some m =>
      have hmem := List.mem_of_find?_eq_some hfind
      rw [if_pos (List.any_eq_true.mpr ⟨m, hmem, (List.find?_eq_some_iff_append.mp hfind).1⟩)]
      rw [Option.some_or, Option.map_some, List.take_append_of_le_length (hp.start_le hmem),
        hnone hl]

section LineStart

variable {r : Reader α β}

theorem lineWise_atLineStart (hadvances : (atLineStart r).Advances) (hhalts : HaltsAt '\n' r) :
    (atLineStart r).LineWise := by
  refine ⟨hadvances, fun before => ?_, rfl⟩
  cases before with
  | none => exact hhalts
  | some c =>
    rw [atLineStart]
    split
    · exact hhalts
    · exact haltsAt_failure

theorem lineWise_fresh (hadvances : (fresh r).Advances) (hhalts : HaltsAt '\n' r) :
    (fresh r).LineWise := by
  refine ⟨hadvances, fun before => ?_, rfl⟩
  cases before with
  | none => exact hhalts
  | some c =>
    rw [fresh]
    split
    · exact haltsAt_failure
    · exact hhalts

theorem segmentsFrom_inside {c : Char} (hc : c ≠ '\n') {gs : List α} (hgs : InLine gs) :
    segmentsFrom (atLineStart r) (some c) 0 gs = gs.map .plain := by
  have hnone (gs : List α) : atLineStart r (some c) gs = none := by
    rw [atLineStart, if_neg hc]
    rfl
  induction gs generalizing c with
  | nil => simp only [segmentsFrom, hnone, List.map_nil]
  | cons g gs ih =>
    obtain ⟨hg, hgs⟩ := List.forall_mem_cons.mp hgs
    rw [segmentsFrom_plain (hnone _), List.map_cons, ih hg hgs]
    intro gs
    rw [atLineStart, if_neg hg]
    rfl

/-- On a line a pattern of line starts matches at most once, at the front. -/
theorem segments_atLineStart (hadvances : (atLineStart r).Advances) {l : List α} (hl : InLine l) :
    (r l = none ∧ (atLineStart r).segments l = l.map .plain) ∨
      ∃ taken v rest, taken ≠ [] ∧ l = taken ++ rest ∧ r l = some (v, rest) ∧
        (atLineStart r).segments l = .found taken v :: rest.map .plain := by
  cases h : r l with
  | none =>
    refine .inl ⟨rfl, ?_⟩
    cases l with
    | nil =>
      rw [segments]
      have hnil : atLineStart r none [] = none := h
      simp only [segmentsFrom, hnil, List.map_nil]
    | cons g gs =>
      obtain ⟨hg, hgs⟩ := List.forall_mem_cons.mp hl
      rw [segments, segmentsFrom_plain h, segmentsFrom_inside hg hgs, List.map_cons]
  | some found =>
    obtain ⟨v, rest⟩ := found
    obtain ⟨taken, hne, e⟩ := @hadvances none l v rest h
    refine .inr ⟨taken, v, rest, hne, e, rfl, ?_⟩
    have happ : atLineStart r none (taken ++ rest) = some (v, rest) := by
      rw [← e]
      exact h
    subst e
    obtain ⟨init, x, rfl⟩ : ∃ init x, taken = init ++ [x] := by
      rcases List.eq_nil_or_concat taken with rfl | ⟨init, x, rfl⟩
      · exact absurd rfl hne
      · exact ⟨init, x, List.concat_eq_append⟩
    have hx : Glyph.seen x ≠ '\n' :=
      hl x (List.mem_append_left _ (List.mem_append_right _ (List.mem_singleton_self x)))
    rw [segments, segmentsFrom_found hne happ, passed_append]
    exact congrArg _ (segmentsFrom_inside hx fun g hg => hl g (List.mem_append_right _ hg))

/-- On a line at whose front the reader fails there is no match. -/
theorem findAll_atLineStart (hadvances : (atLineStart r).Advances) {l : List α} (hl : InLine l)
    (h : r l = none) : (atLineStart r).findAll l = [] := by
  rcases segments_atLineStart hadvances hl with ⟨-, e⟩ | ⟨taken, v, rest, -, -, hsome, -⟩
  · rw [findAll, e, matchesFrom_plain]
  · rw [h] at hsome
    cases hsome

end LineStart

end Pattern

end PineTools
