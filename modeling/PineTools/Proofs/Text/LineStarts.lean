import PineTools.Text.LineStarts

namespace PineTools.Text

/-- Where ascending numbers pass a bound: what stands before is at most the bound, and what stands
from there on is greater. -/
structure Splits (xs : Array Nat) (x i : Nat) : Prop where
  le_size : i ≤ xs.size
  before : ∀ k (hk : k < xs.size), k < i → xs[k] ≤ x
  behind : ∀ k (hk : k < xs.size), i ≤ k → x < xs[k]

theorem getElem_le_getElem {xs : Array Nat} (hxs : xs.toList.Pairwise (· ≤ ·)) {i j : Nat}
    (hij : i ≤ j) (hj : j < xs.size) :
    xs[i] ≤ xs[j] := by
  rcases Nat.eq_or_lt_of_le hij with rfl | hlt
  · exact Nat.le_refl _
  · exact List.pairwise_iff_getElem.mp hxs i j (Nat.lt_trans hlt hj) hj hlt

/-- Halving keeps the bound inside the range. -/
theorem splits_bisect {xs : Array Nat} (hxs : xs.toList.Pairwise (· ≤ ·)) {x low high : Nat}
    (h : high ≤ xs.size) (hrange : low ≤ high) (hlow : ∀ k (hk : k < xs.size), k < low → xs[k] ≤ x)
    (hhigh : ∀ k (hk : k < xs.size), high ≤ k → x < xs[k]) :
    Splits xs x (bisect xs x low high h) := by
  fun_induction bisect xs x low high h with
  | case1 low high h hlt middle hx ih =>
    refine ih (by omega) hlow fun k hk hmiddle => ?_
    exact Nat.lt_of_lt_of_le hx (getElem_le_getElem hxs hmiddle hk)
  | case2 low high h hlt middle hx ih =>
    refine ih (by omega) (fun k hk hmiddle => ?_) hhigh
    exact Nat.le_trans (getElem_le_getElem hxs (Nat.le_of_lt_succ hmiddle) (by omega))
      (Nat.le_of_not_lt hx)
  | case3 low high h hlt =>
    have hend : low = high := by omega
    exact ⟨by omega, hlow, fun k hk hkl => hhigh k hk (hend ▸ hkl)⟩

/-- Numbers up to the place where they pass a bound are those that do not exceed it. -/
theorem Splits.countP_eq {xs : Array Nat} {x i : Nat} (h : Splits xs x i) :
    xs.toList.countP (· ≤ x) = i := by
  have hlen : (xs.toList.take i).length = i := List.length_take_of_le h.le_size
  have hbefore : (xs.toList.take i).countP (· ≤ x) = i := by
    refine (List.countP_eq_length.mpr ?_).trans hlen
    intro y hy
    obtain ⟨k, hk, rfl⟩ := List.mem_take_iff_getElem.mp hy
    simpa using h.before k (by simp at hk; omega) (by omega)
  have hbehind : (xs.toList.drop i).countP (· ≤ x) = 0 := by
    refine List.countP_eq_zero.mpr ?_
    intro y hy
    obtain ⟨k, hk, rfl⟩ := List.mem_drop_iff_getElem.mp hy
    simpa using h.behind (i + k) (by simp at hk; omega) (Nat.le_add_right i k)
  rw [← List.take_append_drop i xs.toList, List.countP_append, hbefore, hbehind, Nat.add_zero]

theorem rank_eq {xs : Array Nat} (hxs : xs.toList.Pairwise (· ≤ ·)) (x : Nat) :
    rank xs x = xs.toList.countP (· ≤ x) := by
  refine (Splits.countP_eq (splits_bisect hxs _ (Nat.zero_le _) ?_ ?_)).symm
  · intro k _ hk
    exact absurd hk (Nat.not_lt_zero k)
  · intro k hk hle
    exact absurd hk (Nat.not_lt.mpr hle)

theorem lt_of_mem_startsFrom {offset start : Nat} {t : Text} (h : start ∈ startsFrom offset t) :
    offset < start := by
  induction t generalizing offset with
  | nil => cases h
  | cons c cs ih =>
    rw [startsFrom] at h
    split at h
    · rcases List.mem_cons.mp h with rfl | h
      · exact Nat.lt_succ_self offset
      · exact Nat.lt_of_succ_lt (ih h)
    · exact Nat.lt_of_succ_lt (ih h)

theorem pairwise_startsFrom (offset : Nat) (t : Text) : (startsFrom offset t).Pairwise (· ≤ ·) := by
  induction t generalizing offset with
  | nil => exact List.Pairwise.nil
  | cons c cs ih =>
    rw [startsFrom]
    split
    · exact List.pairwise_cons.mpr ⟨fun start h => Nat.le_of_lt (lt_of_mem_startsFrom h),
        ih (offset + 1)⟩
    · exact ih (offset + 1)

/-- As many lines start up to an offset, the first one apart, as there are newlines before it. -/
theorem countP_startsFrom (offset i : Nat) (t : Text) :
    (startsFrom offset t).countP (· ≤ offset + i) = (t.take i).count '\n' := by
  induction t generalizing offset i with
  | nil => simp [startsFrom]
  | cons c cs ih =>
    cases i with
    | zero =>
      refine List.countP_eq_zero.mpr ?_
      intro start h
      simpa using lt_of_mem_startsFrom h
    | succ i =>
      have hrest := ih (offset + 1) i
      rw [Nat.add_assoc, Nat.add_comm 1 i] at hrest
      by_cases hc : c = '\n'
      · simp [startsFrom, hc, hrest]
      · simp [startsFrom, hc, hrest]

theorem lineOf_eq_lineAt (t : Text) (i : Nat) : lineOf t i = lineAt t i := by
  have hsorted : (lineStarts t).toList.Pairwise (· ≤ ·) :=
    List.pairwise_cons.mpr ⟨fun start _ => Nat.zero_le start, pairwise_startsFrom 0 t⟩
  have hcount := countP_startsFrom 0 i t
  rw [Nat.zero_add] at hcount
  rw [lineOf, rank_eq hsorted, lineAt, ← hcount]
  simp [lineStarts]

/-- An offset behind another lies on the same line unless a newline stands between. -/
theorem lineAt_succ {t : Text} {i : Nat} {c : Char} (h : t[i]? = some c) :
    lineAt t (i + 1) = if c = '\n' then lineAt t i + 1 else lineAt t i := by
  rw [lineAt, lineAt, List.take_add_one, h, List.count_append]
  by_cases hc : c = '\n' <;> simp [hc]

end PineTools.Text
