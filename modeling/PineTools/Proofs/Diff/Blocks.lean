import PineTools.Diff.Blocks

/-! Common blocks. Every block holds the same items on both sides, the blocks follow each other on
both sides, and between the last one and the ends no pair of equal items is left at which a run
could have begun. -/
namespace PineTools.Diff

variable {α : Type} [BEq α] (xs ys : List α)

/-- A pair of offsets at which a run may hold the same item on both sides. -/
def Seed (i j : Nat) : Prop := ∃ row, (seeds xs ys)[i]? = some row ∧ j ∈ row

def Window.Bare (w : Window) : Prop :=
  ∀ i j, w.leftStart ≤ i → i < w.leftStop → w.rightStart ≤ j → j < w.rightStop → ¬ Seed xs ys i j

/-- A block inside a window that holds the same items on both sides. -/
structure Block.Within (w : Window) (b : Block) : Prop where
  left_le : w.leftStart ≤ b.left
  right_le : w.rightStart ≤ b.right
  left_end : b.left + b.size ≤ w.leftStop
  right_end : b.right + b.size ≤ w.rightStop
  same : ∀ k < b.size, xs[b.left + k]? = ys[b.right + k]?

/-- Blocks that follow each other from the given offsets on up to the others. Behind the last one no
run may begin. -/
inductive Blocks : Nat → Nat → List Block → Nat → Nat → Prop
  | nil {i j e f : Nat} (left_le : i ≤ e) (right_le : j ≤ f)
  (bare : Window.Bare xs ys ⟨i, e, j, f⟩) : Blocks i j [] e f
  | cons {b : Block} {bs : List Block} {i j e f : Nat} (left_le : i ≤ b.left)
  (right_le : j ≤ b.right) (pos : 0 < b.size)
      (same : ∀ k < b.size, xs[b.left + k]? = ys[b.right + k]?)
      (rest : Blocks (b.left + b.size) (b.right + b.size) bs e f) : Blocks i j (b :: bs) e f

variable {xs ys}

section Seeds

variable [LawfulBEq α]

theorem Seed.same {i j : Nat} (h : Seed xs ys i j) : xs[i]? = ys[j]? := by
  obtain ⟨row, hrow, hj⟩ := h
  rw [seeds, List.getElem?_map, Option.map_eq_some_iff] at hrow
  obtain ⟨x, hx, rfl⟩ := hrow
  split at hj
  · cases hj
  obtain ⟨p, hp, rfl⟩ := List.mem_map.mp hj
  obtain ⟨hmem, heq⟩ := List.mem_filter.mp hp
  have hy : ys[p.2]? = some p.1 := List.mem_zipIdx_iff_getElem?.mp hmem
  rw [hx, hy, eq_of_beq heq]

/-- A pair of equal items is one, unless the item is frequent. -/
theorem seed_of_same {x : α} {i j : Nat} (hx : xs[i]? = some x) (hy : ys[j]? = some x)
    (hrare : isFrequent ys x = false) :
    Seed xs ys i j := by
  refine ⟨(ys.zipIdx.filter fun p => p.1 == x).map fun p => p.2, ?_, ?_⟩
  · rw [seeds, List.getElem?_map, hx]
    simp [hrare]
  · refine List.mem_map.mpr ⟨(x, j), List.mem_filter.mpr ⟨List.mem_zipIdx_iff_getElem?.mpr hy, ?_⟩,
      rfl⟩
    exact beq_self_eq_true x

omit [LawfulBEq α] in
theorem isFrequent_of_count_le_one {x : α} (h : ys.count x ≤ 1) : isFrequent ys x = false := by
  rw [isFrequent, Bool.and_eq_false_imp]
  intro _
  rw [decide_eq_false_iff_not]
  omega

end Seeds

section Longest

variable {w : Window}

theorem runBefore_cases (ends : List (Nat × Nat)) (j : Nat) :
    runBefore ends j = 0 ∨ ∃ e ∈ ends, e.1 + 1 = j ∧ runBefore ends j = e.2 := by
  cases j with
  | zero => exact .inl rfl
  | succ j =>
    cases hfind : ends.find? fun e => e.1 == j with
    | none => exact .inl (by rw [runBefore, hfind]; rfl)
    | some e =>
      have hj : e.1 = j := by simpa using List.find?_some hfind
      exact .inr ⟨e, List.mem_of_find?_eq_some hfind, congrArg (· + 1) hj, by
        rw [runBefore, hfind]; rfl⟩

variable (xs ys w)

def RunsEnd (i : Nat) (ends : List (Nat × Nat)) : Prop :=
  ∀ e ∈ ends, e.2 ≤ i ∧ e.2 ≤ e.1 + 1 ∧ Block.Within xs ys w ⟨i - e.2, e.1 + 1 - e.2, e.2⟩

variable {xs ys w}

omit [BEq α] in
/-- Over a pair of equal items a run goes on, and without one it begins there. -/
theorem RunsEnd.next {i : Nat} {ends : List (Nat × Nat)} (h : RunsEnd xs ys w i ends)
    (hi : w.leftStart ≤ i) (hi' : i < w.leftStop) {row : List Nat}
    (hrow : ∀ j ∈ row, xs[i]? = ys[j]?) :
    RunsEnd xs ys w (i + 1)
      ((row.filter fun j => w.rightStart ≤ j && j < w.rightStop).map fun j =>
        (j, runBefore ends j + 1)) := by
  intro e he
  obtain ⟨j, hj, rfl⟩ := List.mem_map.mp he
  obtain ⟨hmem, hinside⟩ := List.mem_filter.mp hj
  rw [Bool.and_eq_true, decide_eq_true_eq, decide_eq_true_eq] at hinside
  have hsame := hrow j hmem
  obtain hzero | ⟨e, hend, rfl, hrun⟩ := runBefore_cases ends j
  · rw [hzero]
    refine ⟨Nat.succ_le_succ (Nat.zero_le i), Nat.succ_le_succ (Nat.zero_le j),
      ⟨hi, hinside.1, hi', hinside.2, ?_⟩⟩
    intro k hk
    obtain rfl : k = 0 := Nat.lt_one_iff.mp hk
    exact hsame
  · rw [hrun]
    obtain ⟨hleft, hright, hwithin⟩ := h e hend
    have hl : i + 1 - (e.2 + 1) = i - e.2 := by omega
    have hr : e.1 + 1 + 1 - (e.2 + 1) = e.1 + 1 - e.2 := by omega
    refine ⟨by omega, by omega, ?_⟩
    dsimp only
    rw [hl, hr]
    refine ⟨hwithin.left_le, hwithin.right_le, by dsimp only; omega, by dsimp only; omega, ?_⟩
    intro k hk
    obtain hk | rfl := Nat.lt_or_eq_of_le (Nat.le_of_lt_succ hk)
    · exact hwithin.same k hk
    · dsimp only
      rwa [Nat.sub_add_cancel hleft, Nat.sub_add_cancel hright]

omit [BEq α] in
theorem foldl_betterBlock_within {i : Nat} {ends : List (Nat × Nat)} {best : Block}
    (hends : RunsEnd xs ys w (i + 1) ends) (hbest : best.Within xs ys w) :
    (ends.foldl (betterBlock i) best).Within xs ys w := by
  induction ends generalizing best with
  | nil => exact hbest
  | cons e ends ih =>
    refine ih (fun e' he' => hends e' (List.mem_cons_of_mem e he')) ?_
    rw [betterBlock]
    split
    · exact (hends e List.mem_cons_self).2.2
    · exact hbest

omit [BEq α] in
/-- The longest run holds the same items on both sides. -/
theorem longestRun_within {rows : List (List Nat)} {i : Nat} {ends : List (Nat × Nat)}
    {best : Block} (hrows : ∀ k row, rows[k]? = some row → ∀ j ∈ row, xs[i + k]? = ys[j]?)
    (hends : RunsEnd xs ys w i ends) (hbest : best.Within xs ys w) (hi : w.leftStart ≤ i)
    (hi' : i + rows.length ≤ w.leftStop) :
    (longestRun w i ends best rows).Within xs ys w := by
  induction rows generalizing i ends best with
  | nil => exact hbest
  | cons row rows ih =>
    rw [List.length_cons] at hi'
    have hnext := hends.next hi (by omega) (hrows 0 row rfl)
    refine ih ?_ hnext (foldl_betterBlock_within hnext hbest) (by omega) (by omega)
    intro k row' hrow' j hj
    have := hrows (k + 1) row' hrow' j hj
    rwa [show i + (k + 1) = i + 1 + k by omega] at this

theorem le_foldl_betterBlock (i : Nat) (ends : List (Nat × Nat)) (best : Block) :
    best.size ≤ (ends.foldl (betterBlock i) best).size ∧ ∀ e ∈ ends,
      e.2 ≤ (ends.foldl (betterBlock i) best).size := by
  induction ends generalizing best with
  | nil => exact ⟨Nat.le_refl _, by simp⟩
  | cons e ends ih =>
    obtain ⟨hbest, hends⟩ := ih (betterBlock i best e)
    have hbetter : best.size ≤ (betterBlock i best e).size ∧ e.2 ≤ (betterBlock i best e).size := by
      rw [betterBlock]
      split
      case isTrue h => exact ⟨Nat.le_of_lt h, Nat.le_refl _⟩
      case isFalse h => exact ⟨Nat.le_refl _, Nat.le_of_not_lt h⟩
    refine ⟨Nat.le_trans hbetter.1 hbest, ?_⟩
    intro e' he'
    obtain rfl | he' := List.mem_cons.mp he'
    · exact Nat.le_trans hbetter.2 hbest
    · exact hends e' he'

theorem size_le_longestRun (rows : List (List Nat)) (i : Nat) (ends : List (Nat × Nat))
    (best : Block) :
    best.size ≤ (longestRun w i ends best rows).size := by
  induction rows generalizing i ends best with
  | nil => exact Nat.le_refl _
  | cons row rows ih => exact Nat.le_trans (le_foldl_betterBlock i _ best).1 (ih ..)

/-- A run that holds nothing is the longest only where no row has an offset of the window. -/
theorem longestRun_bare {rows : List (List Nat)} {i : Nat} {ends : List (Nat × Nat)} {best : Block}
    (h : (longestRun w i ends best rows).size = 0) :
    ∀ row ∈ rows, ∀ j ∈ row, ¬(w.rightStart ≤ j ∧ j < w.rightStop) := by
  induction rows generalizing i ends best with
  | nil =>
    intro row hrow
    cases hrow
  | cons row rows ih =>
    intro row' hrow' j hj hinside
    obtain rfl | hrow' := List.mem_cons.mp hrow'
    · have hmem : (j, runBefore ends j + 1) ∈
          (row'.filter fun j => w.rightStart ≤ j && j < w.rightStop).map fun j =>
            (j, runBefore ends j + 1) :=
        List.mem_map.mpr ⟨j, List.mem_filter.mpr ⟨hj, by simpa using hinside⟩, rfl⟩
      have hlong : runBefore ends j + 1 ≤ (longestRun w i ends best (row' :: rows)).size :=
        Nat.le_trans ((le_foldl_betterBlock i _ best).2 _ hmem) (size_le_longestRun rows _ _ _)
      omega
    · exact ih h row' hrow' j hj hinside

end Longest

section Extending

variable {w : Window}

theorem extendLeft_within [LawfulBEq α] (fuel : Nat) {b : Block} (h : b.Within xs ys w) :
    (extendLeft xs.toArray ys.toArray w fuel b).Within xs ys w := by
  induction fuel generalizing b with
  | zero => exact h
  | succ fuel ih =>
    rw [extendLeft]
    split
    case isFalse => exact h
    case isTrue hmore =>
      simp only [List.getElem?_toArray, Bool.and_eq_true, decide_eq_true_eq, beq_iff_eq] at hmore
      obtain ⟨⟨hleft, hright⟩, hsame⟩ := hmore
      have hl := h.left_end
      have hr := h.right_end
      refine ih ⟨by
        dsimp only; omega, by dsimp only; omega, by dsimp only; omega, by dsimp only; omega, ?_⟩
      intro k hk
      dsimp only at hk ⊢
      cases k with
      | zero => exact hsame
      | succ k =>
        have := h.same k (by omega)
        rwa [show b.left - 1 + (k + 1) = b.left + k by
          omega, show b.right - 1 + (k + 1) = b.right + k by omega]

theorem extendRight_within [LawfulBEq α] (fuel : Nat) {b : Block} (h : b.Within xs ys w) :
    (extendRight xs.toArray ys.toArray w fuel b).Within xs ys w := by
  induction fuel generalizing b with
  | zero => exact h
  | succ fuel ih =>
    rw [extendRight]
    split
    case isFalse => exact h
    case isTrue hmore =>
      simp only [List.getElem?_toArray, Bool.and_eq_true, decide_eq_true_eq, beq_iff_eq] at hmore
      obtain ⟨⟨hleft, hright⟩, hsame⟩ := hmore
      refine ih ⟨h.left_le, h.right_le, hleft, hright, ?_⟩
      intro k hk
      obtain hk | rfl := Nat.lt_or_eq_of_le (Nat.le_of_lt_succ hk)
      · exact h.same k hk
      · exact hsame

theorem size_le_extendLeft (fuel : Nat) (b : Block) :
    b.size ≤ (extendLeft xs.toArray ys.toArray w fuel b).size := by
  induction fuel generalizing b with
  | zero => exact Nat.le_refl _
  | succ fuel ih =>
    rw [extendLeft]
    split
    · exact Nat.le_of_succ_le (ih ⟨b.left - 1, b.right - 1, b.size + 1⟩)
    · exact Nat.le_refl _

theorem size_le_extendRight (fuel : Nat) (b : Block) :
    b.size ≤ (extendRight xs.toArray ys.toArray w fuel b).size := by
  induction fuel generalizing b with
  | zero => exact Nat.le_refl _
  | succ fuel ih =>
    rw [extendRight]
    split
    · exact Nat.le_of_succ_le (ih ⟨b.left, b.right, b.size + 1⟩)
    · exact Nat.le_refl _

end Extending

section Searching

variable {w : Window}

theorem own_row {k : Nat} {row : List Nat}
    (h : (((seeds xs ys).take w.leftStop).drop w.leftStart)[k]? = some row) :
    w.leftStart + k < w.leftStop ∧ (seeds xs ys)[w.leftStart + k]? = some row := by
  rw [List.getElem?_drop, List.getElem?_take] at h
  split at h
  case isTrue hlt => exact ⟨hlt, h⟩
  case isFalse => cases h

theorem longestBlock_within [LawfulBEq α] (hleft : w.leftStart ≤ w.leftStop)
    (hright : w.rightStart ≤ w.rightStop) :
    (longestBlock xs.toArray ys.toArray (seeds xs ys) w).Within xs ys w := by
  refine extendRight_within _ (extendLeft_within _ (longestRun_within ?_ ?_ ?_ (Nat.le_refl _) ?_))
  · intro k row hrow j hj
    exact Seed.same ⟨row, (own_row hrow).2, hj⟩
  · intro e he
    cases he
  · exact ⟨Nat.le_refl _, Nat.le_refl _, hleft, hright, by intro k hk; cases hk⟩
  · rw [List.length_drop, List.length_take]
    omega

theorem longestBlock_bare (h : (longestBlock xs.toArray ys.toArray (seeds xs ys) w).size = 0) :
    w.Bare xs ys := by
  intro i j hi hi' hj hj' ⟨row, hrow, hmem⟩
  have hseed : (longestRun w w.leftStart [] ⟨w.leftStart, w.rightStart, 0⟩
      (((seeds xs ys).take w.leftStop).drop w.leftStart)).size = 0 := by
    rw [longestBlock] at h
    exact Nat.le_zero.mp
      (Nat.le_trans (Nat.le_trans (size_le_extendLeft _ _) (size_le_extendRight _ _))
      (Nat.le_of_eq h))
  have hown : (((seeds xs ys).take w.leftStop).drop w.leftStart)[i - w.leftStart]? = some row := by
    rw [List.getElem?_drop, List.getElem?_take, Nat.add_sub_cancel' hi, if_pos hi', hrow]
  exact longestRun_bare hseed row (List.mem_of_getElem? hown) j hmem ⟨hj, hj'⟩

theorem Blocks.append {i j i' j' e f : Nat} {bs : List Block} (h : Blocks xs ys i j bs i' j')
    {b : Block} {bs' : List Block} (h' : Blocks xs ys i' j' (b :: bs') e f) :
    Blocks xs ys i j (bs ++ b :: bs') e f := by
  induction h with
  | nil left_le right_le =>
    cases h' with
    | cons left_le' right_le' pos same rest =>
      exact .cons (Nat.le_trans left_le left_le') (Nat.le_trans right_le right_le') pos same rest
  | cons left_le right_le pos same _ ih => exact .cons left_le right_le pos same (ih h')

/-- The blocks of a window lead from its beginning to its end. -/
theorem blocksIn_blocks [LawfulBEq α] {fuel : Nat} (hfuel : w.leftStop - w.leftStart < fuel)
    (hleft : w.leftStart ≤ w.leftStop) (hright : w.rightStart ≤ w.rightStop) :
    Blocks xs ys w.leftStart w.rightStart (blocksIn xs.toArray ys.toArray (seeds xs ys) fuel w)
      w.leftStop w.rightStop := by
  induction fuel generalizing w with
  | zero => cases hfuel
  | succ fuel ih =>
    obtain ⟨hl, hr, hl', hr', hsame⟩ := @longestBlock_within _ _ xs ys w _ hleft hright
    rw [blocksIn]
    dsimp only
    split
    case isTrue hzero => exact .nil hleft hright (longestBlock_bare hzero)
    case isFalse hsize =>
      generalize longestBlock xs.toArray ys.toArray (seeds xs ys) w = b at hl hr hl' hr' hsame hsize
      -- A part that is not searched is empty on one side.
      have hempty {l l' r r' : Nat} (h : ¬(l < l' ∧ r < r')) (hl : l ≤ l') (hr : r ≤ r') :
          Blocks xs ys l r [] l' r' := by
        refine .nil hl hr ?_
        intro i j hi hi' hj hj'
        dsimp only at hi hi' hj hj'
        omega
      have hbefore := @ih ⟨w.leftStart, b.left, w.rightStart, b.right⟩ (by dsimp only; omega) hl hr
      have hafter := @ih ⟨b.left + b.size, w.leftStop, b.right + b.size, w.rightStop⟩
        (by dsimp only; omega) hl' hr'
      refine Blocks.append ?_ (.cons (Nat.le_refl _) (Nat.le_refl _) (by omega) hsame ?_)
      · split
        case isTrue => exact hbefore
        case isFalse h => exact hempty (by simpa using h) hl hr
      · split
        case isTrue => exact hafter
        case isFalse h => exact hempty (by simpa using h) hl' hr'

theorem joinBlocks_blocks {i j e f : Nat} {bs : List Block} (h : Blocks xs ys i j bs e f) :
    Blocks xs ys i j (joinBlocks bs) e f := by
  induction h with
  | nil left_le right_le bare => exact .nil left_le right_le bare
  | @cons b bs i j e f left_le right_le pos same _ ih =>
    rw [joinBlocks]
    cases hjoin : joinBlocks bs with
    | nil =>
      rw [hjoin] at ih
      exact .cons left_le right_le pos same ih
    | cons c more =>
      rw [hjoin] at ih
      dsimp only
      split
      case isFalse => exact .cons left_le right_le pos same ih
      case isTrue hnext =>
        obtain ⟨hl, hr⟩ := hnext
        cases ih with
        | cons _ _ _ same' rest =>
          refine .cons left_le right_le (Nat.lt_of_lt_of_le pos (Nat.le_add_right _ _)) ?_ ?_
          · intro k hk
            dsimp only at hk ⊢
            by_cases hkb : k < b.size
            · exact same k hkb
            · have := same' (k - b.size) (by omega)
              rwa [← hl, ← hr, show b.left + b.size + (k - b.size) = b.left + k by omega,
                show b.right + b.size + (k - b.size) = b.right + k by omega] at this
          · dsimp only
            rwa [← Nat.add_assoc, ← Nat.add_assoc, hl, hr]

end Searching

variable (xs ys)

/-- The common blocks of two sequences hold the same items, follow each other, and leave no pair of
items behind them at which one more could begin. -/
theorem commonBlocks_blocks [LawfulBEq α] :
    Blocks xs ys 0 0 (commonBlocks xs ys) xs.length ys.length :=
  joinBlocks_blocks (@blocksIn_blocks _ _ xs ys ⟨0, xs.length, 0, ys.length⟩ _ (xs.length + 1)
    (Nat.lt_succ_self _)
    (Nat.zero_le _) (Nat.zero_le _))

end PineTools.Diff
