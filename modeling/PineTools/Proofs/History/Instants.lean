import PineTools.Proofs.Calendar.Order

/-! Dated instants and their texts. The text of an instant is a row of numbers of fixed widths with
fixed signs between them, so the texts of dated instants sort like the instants, in time stamps and
in file names alike. -/
namespace PineTools.History

open Calendar

/-- Numbers of fixed widths, each with the text that follows it. A width is given by the number of
digits before the last. -/
def stampText : List (Nat × Text) → List Nat → Text
  | (w, sign) :: layout, n :: ns => padded (w + 1) n ++ (sign ++ stampText layout ns)
  | _, _ => []

/-- The numbers have room in their widths. -/
def Fits : List (Nat × Text) → List Nat → Prop
  | (w, _) :: layout, n :: ns => n < 10 ^ (w + 1) ∧ Fits layout ns
  | [], [] => True
  | _, _ => False

theorem stampText_lt {layout : List (Nat × Text)} {ms ns : List Nat} (h : ms < ns)
    (hm : Fits layout ms) (hn : Fits layout ns) :
    stampText layout ms < stampText layout ns := by
  induction layout generalizing ms ns with
  | nil =>
    cases ns with
    | nil => exact absurd h (List.not_lt_nil _)
    | cons n ns => exact hn.elim
  | cons p layout ih =>
    cases ms with
    | nil => exact hm.elim
    | cons m ms =>
      cases ns with
      | nil => exact hn.elim
      | cons n ns =>
        rw [stampText, stampText]
        rcases List.cons_lt_cons_iff.mp h with hlt | ⟨rfl, hrest⟩
        · exact append_lt_append (by rw [padded_length hm.1, padded_length hn.1])
            (padded_lt hlt hn.1) _ _
        · exact List.append_left_lt (List.append_left_lt (ih hrest hm.2 hn.2))

theorem stampText_length {layout : List (Nat × Text)} {ns : List Nat} (h : Fits layout ns) :
    (stampText layout ns).length = (layout.map fun p => p.1 + 1 + p.2.length).sum := by
  induction layout generalizing ns with
  | nil => cases ns <;> rfl
  | cons p layout ih =>
    cases ns with
    | nil => exact h.elim
    | cons n ns =>
      rw [stampText, List.length_append, List.length_append, padded_length h.1, ih h.2,
        List.map_cons, List.sum_cons, Nat.add_assoc (p.1 + 1)]

/-- The microseconds of an instant since the start of the year 1. -/
def micros (t : Int) : Nat := (t - firstInstant).toNat

def instantFields (t : Int) : List Nat :=
  (dateOfDay (micros t / dayLength)).fields ++
    [micros t % dayLength / 1000000 / 3600, micros t % dayLength / 1000000 / 60 % 60,
      micros t % dayLength / 1000000 % 60, micros t % dayLength % 1000000]

def instantLayout (colon point : Char) : List (Nat × Text) :=
  [(3, ['-']), (1, ['-']), (1, ['T']), (1, [colon]), (1, [colon]), (1, [point]),
    (5, ['+', '0', '0', colon, '0', '0'])]

theorem instantText_eq (colon point : Char) (t : Int) :
    instantText colon point t = stampText (instantLayout colon point) (instantFields t) := by
  simp only [instantText, instantLayout, instantFields, Date.fields, stampText, micros,
    List.cons_append, List.nil_append, List.append_assoc, List.append_nil]

/-- A sign of a time stamp as file names have it. -/
def hyphenated (c : Char) : Char := if c = ':' ∨ c = '.' then '-' else c

/-- The name of a record is its time stamp with hyphens for the colons and the point. -/
theorem fileStem_eq_map (t : Int) : fileStem t = (timestamp t).map hyphenated := by
  have hdigits (w n : Nat) : (padded w n).map hyphenated = padded w n := by
    refine (List.map_congr_left fun c hc => if_neg ?_).trans (List.map_id _)
    rintro (rfl | rfl) <;> exact absurd (isDigit_of_mem_padded hc) (by decide)
  have hsigns : hyphenated ':' = '-' ∧ hyphenated '.' = '-' ∧ hyphenated '-' = '-' ∧
    hyphenated 'T' = 'T' ∧ hyphenated '+' = '+' ∧
      hyphenated '0' = '0' := by decide
  simp only [fileStem, timestamp, instantText, List.map_append, List.map_cons, List.map_nil,
    hdigits, hsigns]

section Dated

variable {t t' : Int}

theorem isDated_iff : isDated t = true ↔ firstInstant ≤ t ∧ t ≤ lastInstant := by
  rw [isDated, Bool.and_eq_true, decide_eq_true_iff, decide_eq_true_iff]

theorem lt_iff_of_growing {f : Int → Text} (hf : ∀ {a b : Int}, isDated a = true → isDated b =
    true → a < b → f a < f b) (h : isDated t = true) (h' : isDated t' = true) :
      t < t' ↔ f t < f t' := by
  refine ⟨hf h h', fun hlt => ?_⟩
  rcases Int.lt_trichotomy t t' with hless | rfl | hless
  · exact hless
  · exact absurd hlt (List.lt_irrefl _)
  · exact absurd hlt (List.lt_asymm (hf h' h hless))

theorem micros_lt (h : isDated t = true) (hlt : t < t') : micros t < micros t' := by
  rw [isDated_iff] at h
  rw [micros, micros]
  omega

theorem instantFields_lt (h : isDated t = true) (hlt : t < t') :
    instantFields t < instantFields t' := by
  have hmicros := micros_lt h hlt
  rw [instantFields, instantFields]
  by_cases hday : micros t / dayLength < micros t' / dayLength
  · exact dateOfDay_lt hday _ _
  · have hsame : micros t / dayLength = micros t' / dayLength := by
      refine Nat.le_antisymm (Nat.div_le_div_right (Nat.le_of_lt hmicros)) (Nat.le_of_not_lt hday)
    have htime : micros t % dayLength < micros t' % dayLength := by
      have := Nat.div_add_mod (micros t) dayLength
      have := Nat.div_add_mod (micros t') dayLength
      rw [hsame] at *
      omega
    rw [hsame]
    refine List.append_left_lt ?_
    simp only [List.cons_lt_cons_iff]
    omega

theorem instantFields_fits (h : isDated t = true) (colon point : Char) :
    Fits (instantLayout colon point) (instantFields t) := by
  rw [isDated_iff] at h
  have hday : micros t / dayLength < daysBeforeYear 10000 := by
    have hmicros : micros t < daysBeforeYear 10000 * dayLength := by
      simp only [micros, firstInstant, lastInstant, dayLength, daysBeforeYear] at h ⊢
      omega
    exact (Nat.div_lt_iff_lt_mul (by decide)).mpr hmicros
  have htime : micros t % dayLength < 86400000000 := Nat.mod_lt _ (by decide)
  obtain ⟨hyear, hmonth, hdate⟩ := dateOfDay_bounds hday
  simp only [instantLayout, instantFields, Date.fields, List.cons_append, List.nil_append,
    Fits, and_true]
  omega

theorem instantText_lt (h : isDated t = true) (h' : isDated t' = true) (hlt : t < t')
    (colon point : Char) :
    instantText colon point t < instantText colon point t' := by
  rw [instantText_eq, instantText_eq]
  exact stampText_lt (instantFields_lt h hlt) (instantFields_fits h _ _) (instantFields_fits h' _ _)

theorem instantText_length (h : isDated t = true) (h' : isDated t' = true) (colon point : Char) :
    (instantText colon point t).length = (instantText colon point t').length := by
  rw [instantText_eq, instantText_eq, stampText_length (instantFields_fits h _ _),
    stampText_length (instantFields_fits h' _ _)]

theorem instantText_lt_iff (h : isDated t = true) (h' : isDated t' = true) (colon point : Char) :
    t < t' ↔ instantText colon point t < instantText colon point t' :=
  lt_iff_of_growing (fun ha hb hlt => instantText_lt ha hb hlt colon point) h h'

theorem instantText_injective (h : isDated t = true) (h' : isDated t' = true) {colon point : Char}
    (heq : instantText colon point t = instantText colon point t') : t = t' := by
  have hlt := instantText_lt_iff h h' colon point
  have hgt := instantText_lt_iff h' h colon point
  rw [heq] at hlt hgt
  exact Int.le_antisymm (Int.not_lt.mp fun hless => List.lt_irrefl _ (hgt.mp hless))
    (Int.not_lt.mp fun hless => List.lt_irrefl _ (hlt.mp hless))

end Dated
end PineTools.History
