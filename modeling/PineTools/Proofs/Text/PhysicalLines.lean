import PineTools.Text.Basic

/-! Physical lines. A text is cut behind each line break, a carriage return with its newline being
one, and what stands behind the last break is an open line. Lines that are ended come out again when
they are written one after the other; an open line runs on into the next. -/
namespace PineTools.Text

def Unbroken (w : Text) : Prop := ∀ c ∈ w, isLineBreak c = false

instance (w : Text) :
    Decidable (Unbroken w) := inferInstanceAs (Decidable (∀ c ∈ w, isLineBreak c = false))

/-- What ends a physical line. -/
inductive IsBreak : Text → Prop
  | pair : IsBreak ['\r', '\n']
  | single {c : Char} (h : isLineBreak c = true) : IsBreak [c]

def Ended (l : Text) : Prop := ∃ w e, Unbroken w ∧ IsBreak e ∧ l = w ++ e

def Open (l : Text) : Prop := l ≠ [] ∧ Unbroken l

theorem physicalLines_plain {c : Char} (hc : isLineBreak c = false) (t : Text) :
    physicalLines (c :: t) = match physicalLines t with | [] => [[c]] | l :: ls => (c :: l) ::
      ls := by
  have hreturn : c ≠ '\r' := by
    rintro rfl
    exact absurd hc (by decide)
  rw [physicalLines.eq_def]
  split
  case h_1 e => cases e
  case h_2 e => exact absurd (List.cons.inj e).1 hreturn
  case h_3 d ds _ e =>
    obtain ⟨rfl, rfl⟩ := List.cons.inj e
    refine (if_neg (by rw [hc]; exact Bool.false_ne_true)).trans ?_
    cases physicalLines t <;> rfl

theorem physicalLines_single {c : Char} (hc : isLineBreak c = true) {t : Text}
    (h : c = '\r' → t.head? ≠ some '\n') :
    physicalLines (c :: t) = [c] :: physicalLines t := by
  rw [physicalLines.eq_def]
  split
  case h_1 e => cases e
  case h_2 ds e =>
    obtain ⟨rfl, rfl⟩ := List.cons.inj e
    exact absurd rfl (h rfl)
  case h_3 d ds _ e =>
    obtain ⟨rfl, rfl⟩ := List.cons.inj e
    rw [if_pos hc]

theorem physicalLines_open {w : Text} (h : Open w) (t : Text) :
    physicalLines (w ++ t) = match physicalLines t with | [] => [w] | l :: ls => (w ++ l) ::
      ls := by
  obtain ⟨hne, hw⟩ := h
  induction w with
  | nil => exact absurd rfl hne
  | cons c w ih =>
    obtain ⟨hc, hw⟩ := List.forall_mem_cons.mp hw
    rw [List.cons_append, physicalLines_plain hc]
    cases w with
    | nil =>
      change (match physicalLines t with | [] => [[c]] | l :: ls => (c :: l) :: ls) = _
      cases physicalLines t <;> rfl
    | cons d w =>
      rw [ih (List.cons_ne_nil d w) hw]
      cases physicalLines t <;> rfl

/-- A break ends its line, unless a newline follows a carriage return. -/
theorem physicalLines_break {e : Text} (he : IsBreak e) {t : Text} (h : t.head? ≠ some '\n') :
    physicalLines (e ++ t) = e :: physicalLines t := by
  cases he with
  | pair => rfl
  | single hc => exact physicalLines_single hc fun _ => h

theorem physicalLines_ended {l : Text} (hl : Ended l) {t : Text} (h : t.head? ≠ some '\n') :
    physicalLines (l ++ t) = l :: physicalLines t := by
  obtain ⟨w, e, hw, he, rfl⟩ := hl
  cases w with
  | nil => exact physicalLines_break he h
  | cons c w => rw [List.append_assoc, physicalLines_open
      ⟨List.cons_ne_nil c w, hw⟩, physicalLines_break he h]

theorem physicalLines_of_open {w : Text} (h : Open w) : physicalLines w = [w] := by
  have := physicalLines_open h []
  rwa [List.append_nil] at this

theorem Ended.cons {l : Text} (hl : Ended l) {c : Char} (hc : isLineBreak c = false) :
    Ended (c :: l) := by
  obtain ⟨w, e, hw, he, rfl⟩ := hl
  exact ⟨c :: w, e, List.forall_mem_cons.mpr ⟨hc, hw⟩, he, rfl⟩

theorem Open.cons {l : Text} (hl : Open l) {c : Char} (hc : isLineBreak c = false) :
    Open (c :: l) :=
  ⟨List.cons_ne_nil c l, List.forall_mem_cons.mpr ⟨hc, hl.2⟩⟩

theorem Open.not_ended {l : Text} (h : Open l) : ¬ Ended l := by
  rintro ⟨w, e, -, he, rfl⟩
  cases he with
  | pair => exact absurd (h.2 '\n' (by simp)) (by decide)
  | single hc =>
    rename_i c
    have := h.2 c (by simp)
    rw [hc] at this
    cases this

/-- Ended lines that do not begin with a newline come out again, one by one. -/
theorem physicalLines_flatten {ls : List Text} (hls : ∀ l ∈ ls, Ended l ∧ l.head? ≠ some '\n')
    {t : Text} (h : t.head? ≠ some '\n') : physicalLines (ls.flatten ++ t) =
      ls ++ physicalLines t := by
  induction ls with
  | nil => rfl
  | cons l ls ih =>
    obtain ⟨⟨hl, -⟩, hls⟩ := List.forall_mem_cons.mp hls
    have hhead : (ls.flatten ++ t).head? ≠ some '\n' := by
      cases ls with
      | nil => exact h
      | cons d ds =>
        obtain ⟨⟨hended, hd⟩, -⟩ := List.forall_mem_cons.mp hls
        cases d with
        | nil =>
          obtain ⟨w, e, -, he, hnil⟩ := hended
          obtain ⟨-, rfl⟩ := List.append_eq_nil_iff.mp hnil.symm
          cases he
        | cons c d => exact hd
    rw [List.flatten_cons, List.append_assoc, physicalLines_ended hl hhead, ih hls,
      List.cons_append]

theorem physicalLines_induction {P : Text → Prop} (nil : P []) (last : ∀ w, Open w → P w)
    (more : ∀ l t, Ended l → physicalLines (l ++ t) = l :: physicalLines t → P t → P (l ++ t))
    (t : Text) : P t := by
  induction hn : t.length using Nat.strongRecOn generalizing t with
  | _ n ih =>
    -- The line up to its break, if there is one.
    have hsplit : t = t.takeWhile (fun c => !isLineBreak c) ++
        t.dropWhile fun c => !isLineBreak c :=
      List.takeWhile_append_dropWhile.symm
    have hw : Unbroken (t.takeWhile fun c => !isLineBreak c) := fun c hc => by
      have := List.all_eq_true.mp List.all_takeWhile c hc
      rwa [Bool.not_eq_true'] at this
    generalize t.takeWhile (fun c => !isLineBreak c) = w at hsplit hw
    cases hrest : t.dropWhile fun c => !isLineBreak c with
    | nil =>
      rw [hrest, List.append_nil] at hsplit
      rw [hsplit]
      cases w with
      | nil => exact nil
      | cons c w => exact last _ ⟨List.cons_ne_nil c w, hw⟩
    | cons c rest =>
      have hc : isLineBreak c = true := by
        have := List.head?_dropWhile_not (fun c => !isLineBreak c) t
        rw [hrest] at this
        simpa using this
      rw [hrest] at hsplit
      obtain ⟨e, rest', he, hbreak, hcut⟩ : ∃ e rest', c :: rest = e ++ rest' ∧ IsBreak e ∧
          physicalLines (e ++ rest') = e :: physicalLines rest' := by
        by_cases hpair : c = '\r' ∧ rest.head? = some '\n'
        · obtain ⟨rfl, hnewline⟩ := hpair
          cases rest with
          | nil => cases hnewline
          | cons d rest =>
            obtain rfl := Option.some.inj hnewline
            exact ⟨['\r', '\n'], rest, rfl, .pair, rfl⟩
        · exact ⟨[c], rest, rfl, .single hc, physicalLines_single hc fun h k => hpair ⟨h, k⟩⟩
      rw [he, ← List.append_assoc] at hsplit
      have hlines : physicalLines ((w ++ e) ++ rest') = (w ++ e) :: physicalLines rest' := by
        cases w with
        | nil => exact hcut
        | cons d w => rw [List.append_assoc, physicalLines_open ⟨List.cons_ne_nil d w, hw⟩, hcut]
      have hshort : rest'.length < n := by
        rw [← hn, hsplit, List.length_append]
        have : 0 < (w ++ e).length := by cases hbreak <;> simp
        omega
      rw [hsplit]
      exact more _ rest' ⟨w, e, hw, hbreak, rfl⟩ hlines (ih _ hshort rest' rfl)

@[simp] theorem flatten_physicalLines (t : Text) : (physicalLines t).flatten = t := by
  induction t using physicalLines_induction with
  | nil => rfl
  | last w hw => rw [physicalLines_of_open hw, List.flatten_singleton]
  | more l t _ e ih => rw [e, List.flatten_cons, ih]

def endsOpen (t : Text) : Bool := t.getLast?.any fun c => !isLineBreak c

theorem endsOpen_append {t : Text} (ht : t ≠ []) (a : Text) : endsOpen (a ++ t) = endsOpen t := by
  rw [endsOpen, endsOpen, List.getLast?_append, List.getLast?_eq_some_getLast ht]
  rfl

theorem endsOpen_of_unbroken {t : Text} (ht : t ≠ []) (h : Unbroken t) : endsOpen t = true := by
  rw [endsOpen, List.getLast?_eq_some_getLast ht, Option.any_some, h _ (List.getLast_mem ht)]
  rfl

theorem ne_nil_of_endsOpen {t : Text} (h : endsOpen t = true) : t ≠ [] := by
  rintro rfl
  exact absurd h (by decide)

theorem endsOpen_iff (t : Text) :
    endsOpen t = true ↔ ∃ x, (physicalLines t).getLast? = some x ∧ Open x := by
  induction t using physicalLines_induction with
  | nil => exact ⟨fun h => absurd h (by decide), fun ⟨_, h, _⟩ => by cases h⟩
  | last w hw =>
    rw [physicalLines_of_open hw]
    exact ⟨fun _ => ⟨w, rfl, hw⟩, fun _ => endsOpen_of_unbroken hw.1 hw.2⟩
  | more l t hl e ih =>
    rw [e]
    by_cases ht : t = []
    · subst ht
      have hopen : endsOpen l = false := by
        obtain ⟨w, e, -, he, rfl⟩ := hl
        cases he with
        | pair => rw [endsOpen_append (by simp)]; decide
        | single hc => rw [endsOpen_append (by simp), endsOpen, List.getLast?_singleton,
            Option.any_some, hc]; rfl
      rw [List.append_nil, hopen]
      refine ⟨fun h => (by cases h), ?_⟩
      rintro ⟨x, ⟨⟩, hx⟩
      exact absurd hl hx.not_ended
    · have hne : physicalLines t ≠ [] := by
        intro hnil
        have := flatten_physicalLines t
        rw [hnil] at this
        exact ht this.symm
      rw [endsOpen_append ht, ih, List.getLast?_cons_of_ne_nil hne]

section Words

theorem not_space_of_word {c : Char} (h : isWord c = true) : isSpace c = false := by
  have apart : ∀ r ∈ wordRanges, ∀ s ∈ spaceRanges, r.2 < s.1 ∨ s.2 < r.1 := by decide +kernel
  have low : ∀ s ∈ spaceRanges, s.2 ≤ 32 ∨ 128 ≤ s.1 := by decide
  refine Bool.eq_false_iff.mpr fun hspace => ?_
  obtain ⟨s, hs, hin⟩ := List.any_eq_true.mp hspace
  rw [Bool.and_eq_true, decide_eq_true_iff, decide_eq_true_iff] at hin
  rw [isWord] at h
  split at h
  case isTrue hascii =>
    have hc : c.toNat ≤ 32 := by
      have := low s hs
      omega
    simp only [isLatin, isAsciiDigit, Bool.or_eq_true, Bool.and_eq_true, decide_eq_true_iff,
      beq_iff_eq, Char.le_def, UInt32.le_iff_toNat_le] at h
    rcases h with ((⟨h, -⟩ | ⟨h, -⟩) | ⟨h, -⟩) | rfl
    · exact absurd (Nat.le_trans h hc) (by decide)
    · exact absurd (Nat.le_trans h hc) (by decide)
    · exact absurd (Nat.le_trans h hc) (by decide)
    · exact absurd hc (by decide)
  case isFalse =>
    obtain ⟨r, hr, hin'⟩ := List.any_eq_true.mp h
    rw [Bool.and_eq_true, decide_eq_true_iff, decide_eq_true_iff] at hin'
    have := apart r hr s hs
    omega

theorem not_break_of_word {c : Char} (h : isWord c = true) : isLineBreak c = false := by
  have within : ∀ r ∈ [(0x0a, 0x0d), (0x1c, 0x1e), (0x85, 0x85), (0x2028, 0x2029)],
      ∃ s ∈ spaceRanges, s.1 ≤ r.1 ∧ r.2 ≤ s.2 := by
    decide
  refine Bool.eq_false_iff.mpr fun hbreak => ?_
  obtain ⟨r, hr, hin⟩ := List.any_eq_true.mp hbreak
  obtain ⟨s, hs, hle⟩ := within r hr
  rw [Bool.and_eq_true, decide_eq_true_iff, decide_eq_true_iff] at hin
  have hspace : isSpace c = true := by
    refine List.any_eq_true.mpr ⟨s, hs, ?_⟩
    rw [Bool.and_eq_true, decide_eq_true_iff, decide_eq_true_iff]
    exact ⟨Nat.le_trans hle.1 hin.1, Nat.le_trans hin.2 hle.2⟩
  rw [not_space_of_word h] at hspace
  cases hspace

theorem not_break_of_wordOrDot {c : Char} (h : isWordOrDot c = true) : isLineBreak c = false := by
  rw [isWordOrDot, Bool.or_eq_true, beq_iff_eq] at h
  obtain h | rfl := h
  · exact not_break_of_word h
  · decide

end Words

end PineTools.Text
