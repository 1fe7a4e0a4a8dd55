import Mathlib.Algebra.Ring.Nat
import PineTools.History.Instant

/-! The texts of instants sort like the instants. Numbers of a fixed width sort like the numbers,
dates like the days they stand for, and the fields of an instant like the instant. -/
namespace PineTools.Calendar

theorem append_lt_append {a b : Text} (hlength : a.length = b.length) (h : a < b) (x y : Text) :
    a ++ x < b ++ y := by
  induction a generalizing b with
  | nil =>
    cases List.length_eq_zero_iff.mp hlength.symm
    exact absurd h (List.not_lt_nil _)
  | cons c a ih =>
    cases b with
    | nil => cases hlength
    | cons d b =>
      rw [List.cons_append, List.cons_append, List.cons_lt_cons_iff]
      rcases List.cons_lt_cons_iff.mp h with hc | ⟨hc, h⟩
      · exact .inl hc
      · exact .inr ⟨hc, ih (Nat.succ.inj hlength) h⟩

section Padded

theorem padded_one {n : Nat} (h : n < 10) : padded 1 n = [n.digitChar] := by
  rw [padded, Nat.toDigits_of_lt_base h]
  rfl

theorem padded_succ (w n : Nat) :
    padded (w + 2) n = padded (w + 1) (n / 10) ++ [(n % 10).digitChar] := by
  by_cases h : n < 10
  · rw [padded, padded, Nat.toDigits_of_lt_base h, Nat.div_eq_of_lt h, Nat.mod_eq_of_lt h,
      Nat.toDigits_zero]
    exact congrArg (· ++ [n.digitChar]) (List.replicate_succ' (n := w) (a := '0'))
  · rw [padded, padded, Nat.toDigits_of_base_le (by decide) (Nat.le_of_not_lt h),
      List.length_append, List.length_singleton, Nat.add_sub_add_right (w + 1) 1, List.append_assoc]

theorem padded_length {w n : Nat} (h : n < 10 ^ (w + 1)) : (padded (w + 1) n).length = w + 1 := by
  have hdigits : (Nat.toDigits 10 n).length ≤ w + 1 :=
    (Nat.length_toDigits_le_iff (by decide) (Nat.succ_pos w)).mpr h
  rw [padded, List.length_append, List.length_replicate]
  exact Nat.sub_add_cancel hdigits

theorem isDigit_of_mem_padded {w n : Nat} {c : Char} (h : c ∈ padded w n) : c.isDigit = true := by
  rcases List.mem_append.mp h with h | h
  · rw [List.eq_of_mem_replicate h]
    rfl
  · exact Nat.isDigit_of_mem_toDigits (by decide) (by decide) h

theorem digitChar_lt {m n : Nat} (h : m < n) (hn : n < 10) : m.digitChar < n.digitChar := by
  rw [Char.lt_def, UInt32.lt_iff_toNat_lt]
  change m.digitChar.toNat < n.digitChar.toNat
  rw [Nat.toNat_digitChar_of_lt_ten (Nat.lt_trans h hn), Nat.toNat_digitChar_of_lt_ten hn]
  exact Nat.add_lt_add_left h 48

theorem padded_lt {w m n : Nat} (h : m < n) (hn : n < 10 ^ (w + 1)) :
    padded (w + 1) m < padded (w + 1) n := by
  induction w generalizing m n with
  | zero =>
    rw [padded_one hn, padded_one (Nat.lt_trans h hn), List.cons_lt_cons_iff]
    exact .inl (digitChar_lt h hn)
  | succ w ih =>
    have hquotient : n / 10 < 10 ^ (w + 1) := by
      rw [Nat.div_lt_iff_lt_mul (by decide)]
      exact hn
    rw [padded_succ, padded_succ]
    by_cases hlt : m / 10 < n / 10
    · exact append_lt_append
        (by rw [padded_length hquotient, padded_length (Nat.lt_trans hlt hquotient)])
        (ih hlt hquotient) _ _
    · have heq : m / 10 = n / 10 := by omega
      rw [heq]
      refine List.append_left_lt ?_
      rw [List.cons_lt_cons_iff]
      exact .inl (digitChar_lt (by omega) (by omega))

end Padded

section Dates

theorem daysBeforeYear_mono {a b : Nat} (h : a ≤ b) : daysBeforeYear a ≤ daysBeforeYear b := by
  induction h with
  | refl => exact Nat.le_refl _
  | step _ ih =>
    refine Nat.le_trans ih ?_
    simp only [daysBeforeYear]
    omega

theorem dateOfDay_year (n : Nat) : 1 ≤ (dateOfDay n).year ∧ daysBeforeYear (dateOfDay n).year ≤ n ∧
    n < daysBeforeYear ((dateOfDay n).year + 1) := by
  have hyear : (dateOfDay n).year =
      if daysBeforeYear (n * 400 / 146097 + 2) ≤ n then n * 400 / 146097 + 2
      else if n < daysBeforeYear (n * 400 / 146097 + 1) then n * 400 / 146097
        else n * 400 / 146097 + 1 := rfl
  rw [hyear]
  split
  · next h =>
    simp only [daysBeforeYear] at h ⊢
    omega
  · next h =>
    split
    · next h' =>
      simp only [daysBeforeYear] at h' ⊢
      omega
    · next h' => exact ⟨Nat.succ_pos _, Nat.le_of_not_lt h', Nat.lt_of_not_le h⟩

theorem isLeap_iff (year : Nat) :
    isLeap year = true ↔ year % 4 = 0 ∧ (year % 100 ≠ 0 ∨ year % 400 = 0) := by
  simp only [isLeap, Bool.and_eq_true, Bool.or_eq_true, beq_iff_eq, bne_iff_ne]

theorem daysBeforeYear_succ (y : Nat) :
    daysBeforeYear (y + 2) = daysBeforeYear (y + 1) + if isLeap (y + 1) then 366 else 365 := by
  have h4 : (y + 1) / 4 = y / 4 + if (y + 1) % 4 = 0 then 1 else 0 := by split <;> omega
  have h100 : (y + 1) / 100 = y / 100 + if (y + 1) % 100 = 0 then 1 else 0 := by split <;> omega
  have h400 : (y + 1) / 400 = y / 400 + if (y + 1) % 400 = 0 then 1 else 0 := by split <;> omega
  -- A year that a larger number divides is divided by the smaller ones.
  have h100' : (y + 1) % 100 = 0 → (y + 1) % 4 = 0 := by omega
  have h400' : (y + 1) % 400 = 0 → (y + 1) % 100 = 0 := by omega
  have hcenturies : y / 100 ≤ y / 4 := by omega
  have hleap := isLeap_iff (y + 1)
  simp only [daysBeforeYear, Nat.add_sub_cancel, show y + 2 - 1 = y + 1 from rfl, h4, h100, h400]
  by_cases a : (y + 1) % 4 = 0
  · by_cases b : (y + 1) % 100 = 0
    · by_cases c : (y + 1) % 400 = 0
      · rw [if_pos a, if_pos b, if_pos c, if_pos (hleap.mpr ⟨a, .inr c⟩)]
        omega
      · rw [if_pos a, if_pos b, if_neg c, if_neg fun h => (hleap.mp h).2.elim (absurd b) c]
        omega
    · rw [if_pos a, if_neg b, if_neg (mt h400' b), if_pos (hleap.mpr ⟨a, .inl b⟩)]
      omega
  · rw [if_neg a, if_neg (mt h100' a), if_neg (mt h400' (mt h100' a)), if_neg fun h =>
      a (hleap.mp h).1]
    omega

theorem monthLengths_sum {year : Nat} (h : 1 ≤ year) :
    daysBeforeYear (year + 1) = daysBeforeYear year + (monthLengths year).sum := by
  obtain ⟨y, rfl⟩ := Nat.exists_eq_add_one.mpr h
  have hsum : (monthLengths (y + 1)).sum = if isLeap (y + 1) then 366 else 365 := by
    rw [monthLengths]
    cases isLeap (y + 1) <;> rfl
  rw [hsum, daysBeforeYear_succ]

theorem monthAndDay_bounds {lengths : List Nat} {month day : Nat} (h : day < lengths.sum)
    (hlengths : ∀ l ∈ lengths, l ≤ 31) :
    month ≤ (monthAndDay month day lengths).1 ∧ (monthAndDay month day lengths).1 <
      month + lengths.length ∧
      (monthAndDay month day lengths).2 ≤ 31 := by
  induction lengths generalizing month day with
  | nil => cases h
  | cons l lengths ih =>
    rw [List.sum_cons] at h
    rw [monthAndDay, List.length_cons]
    split
    · next hday =>
      have hl := hlengths l List.mem_cons_self
      refine ⟨Nat.le_refl _, ?_, ?_⟩ <;> dsimp only <;> omega
    · next hday =>
      obtain ⟨hlow, hhigh, hlast⟩ := @ih (month + 1) (day - l) (by omega)
        fun k hk => hlengths k (List.mem_cons_of_mem l hk)
      refine ⟨by omega, by omega, hlast⟩

/-- Later days of a year stand in a later month or later in the same one. -/
theorem monthAndDay_lt {lengths : List Nat} {month day day' : Nat} (h : day < day')
    (h' : day' < lengths.sum) (hlengths : ∀ l ∈ lengths, l ≤ 31) :
    (monthAndDay month day lengths).1 < (monthAndDay month day' lengths).1 ∨
      (monthAndDay month day lengths).1 = (monthAndDay month day' lengths).1 ∧
        (monthAndDay month day lengths).2 < (monthAndDay month day' lengths).2 := by
  induction lengths generalizing month day day' with
  | nil => cases h'
  | cons l lengths ih =>
    rw [List.sum_cons] at h'
    have hrest : ∀ k ∈ lengths, k ≤ 31 := fun k hk => hlengths k (List.mem_cons_of_mem l hk)
    rw [monthAndDay, monthAndDay]
    by_cases hday : day' < l
    · rw [if_pos hday, if_pos (Nat.lt_trans h hday)]
      exact .inr ⟨rfl, Nat.succ_lt_succ h⟩
    · rw [if_neg hday]
      split
      · obtain ⟨hlow, -, -⟩ := @monthAndDay_bounds lengths (month + 1) (day' - l) (by omega) hrest
        exact .inl hlow
      · exact ih (by omega) (by omega) hrest

theorem monthLengths_le (year : Nat) : ∀ l ∈ monthLengths year, l ≤ 31 := by
  rw [monthLengths]
  cases isLeap year <;> decide

theorem dateOfDay_monthAndDay (n : Nat) : ((dateOfDay n).month, (dateOfDay n).day) =
    monthAndDay 1 (n - daysBeforeYear (dateOfDay n).year) (monthLengths (dateOfDay n).year) := rfl

theorem dayOfYear_lt (n : Nat) :
    n - daysBeforeYear (dateOfDay n).year < (monthLengths (dateOfDay n).year).sum := by
  obtain ⟨hyear, hlow, hhigh⟩ := dateOfDay_year n
  have hsum := monthLengths_sum hyear
  omega

/-- The numbers of a date before the year 10000 have at most four digits and two each. -/
theorem dateOfDay_bounds {n : Nat} (h : n < daysBeforeYear 10000) :
    (dateOfDay n).year < 10000 ∧ (dateOfDay n).month < 100 ∧ (dateOfDay n).day < 100 := by
  obtain ⟨-, hlow, -⟩ := dateOfDay_year n
  obtain ⟨-, hmonth, hday⟩ := @monthAndDay_bounds _ 1 _ (dayOfYear_lt n) (monthLengths_le _)
  rw [← dateOfDay_monthAndDay] at hmonth hday
  refine ⟨Nat.lt_of_not_le fun hyear => ?_, Nat.lt_trans hmonth ?_,
    Nat.lt_of_le_of_lt hday (by decide)⟩
  · exact absurd (Nat.le_trans (daysBeforeYear_mono hyear) hlow) (Nat.not_le_of_lt h)
  · exact (by decide : 1 + 12 < 100)

/-- The numbers of a date, the largest unit first. -/
def Date.fields (d : Date) : List Nat := [d.year, d.month, d.day]

theorem dateOfDay_lt {m n : Nat} (h : m < n) (rest rest' : List Nat) :
    (dateOfDay m).fields ++ rest < (dateOfDay n).fields ++ rest' := by
  obtain ⟨-, hlow, -⟩ := dateOfDay_year m
  obtain ⟨-, -, hhigh⟩ := dateOfDay_year n
  have hyears : (dateOfDay m).year ≤ (dateOfDay n).year := by
    refine Nat.le_of_not_lt fun hlater => ?_
    have hmono : daysBeforeYear ((dateOfDay n).year + 1) ≤ _ := daysBeforeYear_mono hlater
    omega
  simp only [Date.fields, List.cons_append, List.nil_append, List.cons_lt_cons_iff]
  rcases Nat.lt_or_eq_of_le hyears with hyear | hyear
  · exact .inl hyear
  · refine .inr ⟨hyear, ?_⟩
    have hdays := @monthAndDay_lt _ 1 (m - daysBeforeYear (dateOfDay n).year)
      (n - daysBeforeYear (dateOfDay n).year)
      (by rw [← hyear]; omega) (dayOfYear_lt n) (monthLengths_le _)
    rw [← dateOfDay_monthAndDay n, ← hyear, ← dateOfDay_monthAndDay m] at hdays
    rcases hdays with hmonth | ⟨hmonth, hday⟩
    · exact .inl hmonth
    · exact .inr ⟨hmonth, .inl hday⟩

end Dates

end PineTools.Calendar
