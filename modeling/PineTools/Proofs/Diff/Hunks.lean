import PineTools.Proofs.Diff.Blocks
import PineTools.Proofs.Diff.Patch

/-! Hunks. The stretches of a listing cover both texts from the front to the end; what the hunks
leave out is the same on both sides, so that carrying them out makes the one text of the other. -/
namespace PineTools.Diff

section Slices

variable {α : Type} (xs : List α) {i j k : Nat}

theorem slice_length (h : j ≤ xs.length) : (Text.slice xs i j).length = j - i := by
  rw [Text.slice, List.length_drop, List.length_take, Nat.min_eq_left h]

theorem slice_append (hij : i ≤ j) (hjk : j ≤ k) :
    Text.slice xs i j ++ Text.slice xs j k = Text.slice xs i k := by
  rw [Text.slice, Text.slice, Text.slice, List.drop_take, List.drop_take, List.drop_take]
  have hdrop : xs.drop j = (xs.drop i).drop (j - i) := by
    rw [List.drop_drop, Nat.add_sub_cancel' hij]
  have hsplit : k - i = (j - i) + (k - j) := by omega
  rw [hdrop, hsplit, List.take_add]

theorem slice_take (hjk : i + j ≤ k) : (Text.slice xs i k).take j = Text.slice xs i (i + j) := by
  rw [Text.slice, Text.slice, List.drop_take, List.drop_take, List.take_take,
    Nat.add_sub_cancel_left, Nat.min_eq_left (by omega)]

theorem slice_drop : (Text.slice xs i k).drop j = Text.slice xs (i + j) k := by
  rw [Text.slice, Text.slice, List.drop_drop]

theorem slice_full : Text.slice xs i xs.length = xs.drop i := by
  rw [Text.slice, List.take_length]

theorem slice_self : Text.slice xs i i = [] := by
  rw [Text.slice, List.drop_take, Nat.sub_self, List.take_zero]

end Slices

variable (xs ys : List Text)

/-- The texts are the same from the given lines on up to the others. -/
structure SameUpTo (i j i' j' : Nat) : Prop where
  left_le : i ≤ i'
  right_le : j ≤ j'
  left_end : i' ≤ xs.length
  right_end : j' ≤ ys.length
  same : Text.slice xs i i' = Text.slice ys j j'

namespace SameUpTo

variable {xs ys} {i j i' j' e f : Nat}

theorem refl (hi : i ≤ xs.length) (hj : j ≤ ys.length) : SameUpTo xs ys i j i j :=
  ⟨Nat.le_refl i, Nat.le_refl j, hi, hj, by rw [slice_self, slice_self]⟩

theorem length_eq (h : SameUpTo xs ys i j i' j') : i' - i = j' - j := by
  rw [← slice_length xs h.left_end, h.same, slice_length ys h.right_end]

theorem trans (h : SameUpTo xs ys i j i' j') (h' : SameUpTo xs ys i' j' e f) :
    SameUpTo xs ys i j e f where
  left_le := Nat.le_trans h.left_le h'.left_le
  right_le := Nat.le_trans h.right_le h'.right_le
  left_end := h'.left_end
  right_end := h'.right_end
  same := by rw [← slice_append xs h.left_le h'.left_le, ← slice_append ys h.right_le h'.right_le,
    h.same, h'.same]

theorem cut (h : SameUpTo xs ys i j i' j') {k : Nat} (hk : k ≤ i' - i) :
    SameUpTo xs ys i j (i + k) (j + k) ∧ SameUpTo xs ys (i + k) (j + k) i' j' := by
  obtain ⟨hleft, hright, hlend, hrend, hsame⟩ := h
  have hlen := (SameUpTo.mk hleft hright hlend hrend hsame).length_eq
  refine ⟨⟨by omega, by omega, by omega, by omega, ?_⟩, ⟨by omega, by omega, hlend, hrend, ?_⟩⟩
  · rw [← slice_take xs (show i + k ≤ i' by omega), ← slice_take ys (show j + k ≤ j' by omega),
      hsame]
  · rw [← slice_drop, ← slice_drop, hsame]

end SameUpTo

/-- A stretch inside both texts. What it takes for equal is the same on both sides, and what it
takes for changed and reaches both ends leaves nothing equal behind. -/
structure Stretch.Fits (s : Stretch) : Prop where
  left_le : s.leftStart ≤ s.leftStop
  right_le : s.rightStart ≤ s.rightStop
  left_end : s.leftStop ≤ xs.length
  right_end : s.rightStop ≤ ys.length
  same : s.equal = true → s.leftStart < s.leftStop ∧ Text.slice xs s.leftStart s.leftStop =
    Text.slice ys s.rightStart s.rightStop
  changed : s.equal = false → s.leftStart < s.leftStop ∨ s.rightStart < s.rightStop
  bare : s.equal = false → s.leftStop = xs.length → s.rightStop = ys.length →
    Window.Bare xs ys ⟨s.leftStart, s.leftStop, s.rightStart, s.rightStop⟩

/-- Stretches that follow each other from the given lines on up to the others. Behind a change there
is something equal. -/
inductive Run : Nat → Nat → List Stretch → Nat → Nat → Prop
  | nil (i j : Nat) : Run i j [] i j
  | cons {s : Stretch} {ss : List Stretch} {i j e f : Nat} (left : s.leftStart = i)
  (right : s.rightStart = j)
      (fits : s.Fits xs ys) (apart : s.equal = false → ∀ next, ss.head? = some next →
        next.equal = true)
      (rest : Run s.leftStop s.rightStop ss e f) : Run i j (s :: ss) e f

/-- Hunks from the given lines on up to the others. What stands between them is the same on both
sides, and none but the last ends in a change. -/
inductive Covers : Nat → Nat → List (List Stretch) → Nat → Nat → Prop
  | done {i j e f : Nat} (same : SameUpTo xs ys i j e f) : Covers i j [] e f
  | hunk {i j i₁ j₁ i₂ j₂ e f : Nat} {ss : List Stretch} {hs : List (List Stretch)}
  (gap : SameUpTo xs ys i j i₁ j₁)
      (run : Run xs ys i₁ j₁ ss i₂ j₂) (apart : hs ≠ [] → ∀ s, ss.getLast? = some s →
        s.equal = true)
      (rest : Covers i₂ j₂ hs e f) : Covers i j (ss :: hs) e f

variable {xs ys}

theorem Stretch.Fits.sameUpTo {s : Stretch} (h : s.Fits xs ys) (he : s.equal = true) :
    SameUpTo xs ys s.leftStart s.rightStart s.leftStop s.rightStop :=
  ⟨h.left_le, h.right_le, h.left_end, h.right_end, (h.same he).2⟩

namespace Run

variable {i j e f : Nat} {ss : List Stretch}

theorem le (h : Run xs ys i j ss e f) : i ≤ e ∧ j ≤ f := by
  induction h with
  | nil => exact ⟨Nat.le_refl _, Nat.le_refl _⟩
  | cons left right fits _ _ ih =>
    subst left right
    exact ⟨Nat.le_trans fits.left_le ih.1, Nat.le_trans fits.right_le ih.2⟩

theorem head (h : Run xs ys i j ss e f) {s : Stretch} (hs : ss.head? = some s) :
    s.leftStart = i ∧ s.rightStart = j := by
  cases h with
  | nil => cases hs
  | cons left right => cases hs; exact ⟨left, right⟩

theorem last (h : Run xs ys i j ss e f) {s : Stretch} (hs : ss.getLast? = some s) :
    s.leftStop = e ∧ s.rightStop = f := by
  induction h with
  | nil => cases hs
  | @cons s' rest i j e f _ _ _ _ run ih =>
    cases rest with
    | nil =>
      cases hs
      cases run
      exact ⟨rfl, rfl⟩
    | cons next rest => exact ih (by rwa [List.getLast?_cons_cons] at hs)

theorem header (h : Run xs ys i j ss e f) (ne : ss ≠ []) :
    hunkHeader ss = s!"@@ -{rangeText i e} +{rangeText j f} @@\n".toList := by
  have hfirst := List.head?_eq_some_head ne
  have hlast := List.getLast?_eq_some_getLast ne
  obtain ⟨hl, hr⟩ := h.head hfirst
  obtain ⟨hl', hr'⟩ := h.last hlast
  rw [hunkHeader, hfirst, hlast]
  dsimp only
  rw [hl, hr, hl', hr']

theorem append (h : Run xs ys i j ss e f) {ss' : List Stretch} {e' f' : Nat}
    (h' : Run xs ys e f ss' e' f') (apart : ∀ s, ss.getLast? = some s → s.equal = false →
      ∀ next, ss'.head? = some next → next.equal = true) :
    Run xs ys i j (ss ++ ss') e' f' := by
  induction h with
  | nil => exact h'
  | @cons s rest i j e f left right fits apart' run ih =>
    cases rest with
    | nil =>
      cases run
      exact .cons left right fits (fun he next hnext => apart s rfl he next hnext) h'
    | cons next rest =>
      refine .cons left right fits (fun he next' hnext => apart' he next' hnext)
        (ih h' fun s' hs' => apart s' ?_)
      rw [List.getLast?_cons_cons]
      exact hs'

theorem split {ss' : List Stretch} (h : Run xs ys i j (ss ++ ss') e f) :
    ∃ i' j', Run xs ys i j ss i' j' ∧ Run xs ys i' j' ss' e f ∧
      ∀ s, ss.getLast? = some s → s.equal = false → ∀ next, ss'.head? = some next →
      next.equal = true := by
  induction ss generalizing i j with
  | nil => exact ⟨i, j, .nil i j, h, by simp⟩
  | cons s ss ih =>
    cases h with
    | cons left right fits apart rest =>
      obtain ⟨i', j', hrun, hrun', hapart⟩ := ih rest
      cases ss with
      | nil =>
        refine ⟨i', j', .cons left right fits (by simp) hrun, hrun', ?_⟩
        rintro s' ⟨⟩ he
        exact apart he
      | cons next ss =>
        refine ⟨i', j', .cons left right fits apart hrun, hrun', fun s' hs' => hapart s' ?_⟩
        rwa [List.getLast?_cons_cons] at hs'

theorem sameUpTo (h : Run xs ys i j ss e f) (hi : i ≤ xs.length) (hj : j ≤ ys.length)
    (hequal : ∀ s ∈ ss, s.equal = true) :
    SameUpTo xs ys i j e f := by
  induction h with
  | nil => exact .refl hi hj
  | cons left right fits _ _ ih =>
    subst left right
    obtain ⟨he, hrest⟩ := List.forall_mem_cons.mp hequal
    exact (fits.sameUpTo he).trans (ih fits.left_end fits.right_end hrest)

end Run

namespace Covers

variable {i j i' j' e f : Nat} {hs : List (List Stretch)}

theorem before (h : SameUpTo xs ys i j i' j') (hs' : Covers xs ys i' j' hs e f) :
    Covers xs ys i j hs e f := by
  cases hs' with
  | done same => exact .done (h.trans same)
  | hunk gap run apart rest => exact .hunk (h.trans gap) run apart rest

theorem behind (h : Covers xs ys i j hs i' j') (same : SameUpTo xs ys i' j' e f) :
    Covers xs ys i j hs e f := by
  induction h with
  | done same' => exact .done (same'.trans same)
  | hunk gap run apart _ ih => exact .hunk gap run apart (ih same)

theorem filter (h : Covers xs ys i j hs e f) : Covers xs ys i j (hs.filter isHunk) e f := by
  induction h with
  | done same => exact .done same
  | @hunk i j i₁ j₁ i₂ j₂ e f ss hs gap run apart rest ih =>
    rw [List.filter_cons]
    split
    case isTrue =>
      refine .hunk gap run (fun hne => apart ?_) ih
      rintro rfl
      exact hne rfl
    case isFalse hnone =>
      have hequal : ∀ s ∈ ss, s.equal = true := by
        intro s hs
        have := List.any_eq_false.mp (Bool.not_eq_true _ ▸ hnone) s hs
        simpa using this
      exact before (gap.trans (run.sameUpTo gap.left_end gap.right_end hequal)) ih

end Covers

section Grouping

variable {s : Stretch}

theorem SameUpTo.fits {i j i' j' : Nat} (h : SameUpTo xs ys i j i' j') (hlt : i < i') :
    Stretch.Fits xs ys ⟨true, i, i', j, j'⟩ :=
  ⟨h.left_le, h.right_le, h.left_end, h.right_end, fun _ => ⟨hlt, h.same⟩, by simp, by simp⟩

theorem Stretch.Fits.firstLines (h : s.Fits xs ys) (he : s.equal = true) :
    (s.firstLines contextLines).Fits xs ys ∧
    SameUpTo xs ys (s.firstLines contextLines).leftStop (s.firstLines contextLines).rightStop
      s.leftStop s.rightStop := by
  have hsame := h.sameUpTo he
  have hlen := hsame.length_eq
  have hlt := (h.same he).1
  obtain ⟨hfirst, hrest⟩ := hsame.cut (Nat.min_le_left (s.leftStop - s.leftStart) contextLines)
  have hcut : s.firstLines contextLines =
    ⟨true, s.leftStart, s.leftStart + min (s.leftStop - s.leftStart) contextLines,
      s.rightStart, s.rightStart + min (s.leftStop - s.leftStart) contextLines⟩ := by
    rw [Stretch.firstLines, he]
    congr 1 <;> omega
  rw [hcut]
  exact ⟨hfirst.fits (by simp only [contextLines]; omega), hrest⟩

theorem Stretch.Fits.lastLines (h : s.Fits xs ys) (he : s.equal = true) :
    (s.lastLines contextLines).Fits xs ys ∧
    SameUpTo xs ys s.leftStart s.rightStart (s.lastLines contextLines).leftStart
      (s.lastLines contextLines).rightStart := by
  have hsame := h.sameUpTo he
  have hlen := hsame.length_eq
  have hlt := (h.same he).1
  obtain ⟨hfirst, hrest⟩ := hsame.cut (Nat.sub_le (s.leftStop - s.leftStart) contextLines)
  have hcut : s.lastLines contextLines =
    ⟨true, s.leftStart + (s.leftStop - s.leftStart - contextLines), s.leftStop,
      s.rightStart + (s.leftStop - s.leftStart - contextLines), s.rightStop⟩ := by
    rw [Stretch.lastLines, he]
    congr 1 <;> omega
  rw [hcut]
  exact ⟨hrest.fits (by simp only [contextLines]; omega), hfirst⟩

theorem Stretch.Fits.between (h : s.Fits xs ys) (he : s.equal = true)
    (hlong : s.leftStop - s.leftStart > 2 * contextLines) :
    SameUpTo xs ys (s.firstLines contextLines).leftStop (s.firstLines contextLines).rightStop
      (s.lastLines contextLines).leftStart (s.lastLines contextLines).rightStart := by
  have hsame := h.sameUpTo he
  have hlen := hsame.length_eq
  have hcut :=
    ((hsame.cut (show contextLines ≤ s.leftStop - s.leftStart by
      simp only [contextLines] at *; omega)).2.cut
    (show s.leftStop - s.leftStart - 2 * contextLines ≤ _ by
      simp only [contextLines] at *; omega)).1
  simp only [Stretch.firstLines, Stretch.lastLines, contextLines] at hlong hcut ⊢
  have hleft : min s.leftStop (s.leftStart + 3) = s.leftStart + 3 := by omega
  have hright : min s.rightStop (s.rightStart + 3) = s.rightStart + 3 := by omega
  have hleft' : max s.leftStart (s.leftStop - 3) =
      s.leftStart + 3 + (s.leftStop - s.leftStart - 2 * 3) := by omega
  have hright' : max s.rightStart (s.rightStop - 3) = s.rightStart + 3 +
      (s.leftStop - s.leftStart - 2 * 3) := by omega
  rw [hleft, hright, hleft', hright']
  exact hcut

variable {i j e f : Nat} {ss : List Stretch}

theorem trimFront_run (h : Run xs ys i j ss e f) (he : e ≤ xs.length) (hf : f ≤ ys.length) :
    ∃ i' j', SameUpTo xs ys i j i' j' ∧ Run xs ys i' j' (trimFront ss) e f := by
  obtain ⟨hie, hjf⟩ := h.le
  have hrefl : SameUpTo xs ys i j i j := .refl (Nat.le_trans hie he) (Nat.le_trans hjf hf)
  cases h with
  | nil => exact ⟨i, j, hrefl, .nil i j⟩
  | @cons s ss _ _ _ _ left right fits apart rest =>
    rw [trimFront]
    split
    case isFalse => exact ⟨i, j, hrefl, .cons left right fits apart rest⟩
    case isTrue hequal =>
      obtain ⟨hfits, hgap⟩ := fits.lastLines hequal
      rw [left, right] at hgap
      exact ⟨_, _, hgap,
        .cons rfl rfl hfits (fun hno => absurd (hno.symm.trans hequal) Bool.false_ne_true) rest⟩

theorem trimBack_run (h : Run xs ys i j ss e f) (he : e ≤ xs.length) (hf : f ≤ ys.length) :
    ∃ e' f', Run xs ys i j (trimBack ss) e' f' ∧ SameUpTo xs ys e' f' e f := by
  have hrefl : SameUpTo xs ys e f e f := .refl he hf
  obtain rfl | ⟨init, s, rfl⟩ := List.eq_nil_or_concat ss
  · exact ⟨e, f, h, hrefl⟩
  rw [List.concat_eq_append] at h ⊢
  rw [trimBack, List.reverse_append]
  change ∃ e' f', Run xs ys i j (if s.equal then s.firstLines contextLines :: init.reverse
    else s :: init.reverse).reverse e' f' ∧ _
  split
  case isFalse =>
    refine ⟨e, f, ?_, hrefl⟩
    rwa [List.reverse_cons, List.reverse_reverse]
  case isTrue hequal =>
    obtain ⟨i', j', hinit, hlast, hapart⟩ := h.split
    cases hlast with
    | cons left right fits apart rest =>
      cases rest
      obtain ⟨hfits, hgap⟩ := fits.firstLines hequal
      refine ⟨_, _, ?_, hgap⟩
      rw [List.reverse_cons, List.reverse_reverse]
      refine hinit.append (.cons left right hfits (by simp) (.nil _ _)) ?_
      rintro s' - - next ⟨⟩
      exact hequal

theorem hunksFrom_covers {hunk : List Stretch} {a b : Nat} (hhunk : Run xs ys i j hunk.reverse a b)
    (h : Run xs ys a b ss e f) (hapart : ∀ s, hunk.head? = some s → s.equal = false →
      ∀ next, ss.head? = some next → next.equal = true)
    (he : e ≤ xs.length) (hf : f ≤ ys.length) : Covers xs ys i j (hunksFrom hunk ss) e f := by
  have hrefl {i j : Nat} {ss : List Stretch} (h : Run xs ys i j ss e f) : SameUpTo xs ys i j i j :=
    .refl (Nat.le_trans h.le.1 he) (Nat.le_trans h.le.2 hf)
  have hwhole : Run xs ys i j (hunk.reverse ++ ss) e f := hhunk.append h (by simpa using hapart)
  induction ss generalizing hunk i j a b with
  | nil =>
    cases h
    exact .hunk (hrefl hhunk) hhunk (by simp) (.done (.refl he hf))
  | cons s ss ih =>
    cases h with
    | cons left right fits apart rest =>
      have hlast : ∀ s', hunk.reverse.getLast? = some s' → s'.equal = false → ∀ next, some s =
          some next → next.equal = true := by
        simpa using hapart
      rw [hunksFrom]
      split
      case isFalse =>
        have hmore : Run xs ys i j (s :: hunk).reverse s.leftStop s.rightStop := by
          rw [List.reverse_cons]
          exact hhunk.append (.cons left right fits (by simp) (.nil _ _)) hlast
        refine ih hmore rest ?_ ?_
        · rintro s' ⟨⟩
          exact apart
        · rwa [List.reverse_cons, List.append_assoc]
      case isTrue hlong =>
        rw [Bool.and_eq_true, decide_eq_true_eq] at hlong
        obtain ⟨hequal, hlong⟩ := hlong
        have hno : s.equal = false → False := fun h => Bool.false_ne_true (h.symm.trans hequal)
        obtain ⟨hfirst, -⟩ := fits.firstLines hequal
        obtain ⟨hfinal, -⟩ := fits.lastLines hequal
        have hgap := fits.between hequal hlong
        have htail : Run xs ys (s.lastLines contextLines).leftStart
          (s.lastLines contextLines).rightStart
            (s.lastLines contextLines :: ss) e f :=
              .cons rfl rfl hfinal (fun h => (hno h).elim) rest
        refine .hunk (hrefl hwhole)
          (?_ : Run xs ys i j _ (s.firstLines contextLines).leftStop
          (s.firstLines contextLines).rightStop)
          ?_ ?_
        · rw [List.reverse_cons]
          refine hhunk.append (.cons left right hfirst (by simp) (.nil _ _)) ?_
          rintro s' - - next ⟨⟩
          exact hequal
        · rintro - s' hs'
          rw [List.reverse_cons, List.getLast?_append] at hs'
          cases hs'
          exact hequal
        · refine Covers.before hgap (ih (.cons rfl rfl hfinal (by simp) (.nil _ _)) rest ?_ htail)
          rintro s' ⟨⟩ h
          exact (hno h).elim

end Grouping

section Stretches

theorem sameUpTo_of_block {b : Block} (hsame : ∀ k < b.size, xs[b.left + k]? = ys[b.right + k]?)
    (hl : b.left + b.size ≤ xs.length) (hr : b.right + b.size ≤ ys.length) :
    SameUpTo xs ys b.left b.right (b.left + b.size) (b.right + b.size) where
  left_le := Nat.le_add_right _ _
  right_le := Nat.le_add_right _ _
  left_end := hl
  right_end := hr
  same := by
    apply List.ext_getElem?
    intro k
    rw [Text.slice, Text.slice, List.getElem?_drop, List.getElem?_drop, List.getElem?_take,
      List.getElem?_take]
    by_cases hk : k < b.size
    · rw [if_pos (by omega), if_pos (by omega), hsame k hk]
    · rw [if_neg (by omega), if_neg (by omega)]

theorem Blocks.le {i j e f : Nat} {bs : List Block} (h : Blocks xs ys i j bs e f) :
    i ≤ e ∧ j ≤ f := by
  induction h with
  | nil left_le right_le => exact ⟨left_le, right_le⟩
  | cons left_le right_le _ _ _ ih => omega

theorem stretchesFrom_run {i j : Nat} {bs : List Block}
    (h : Blocks xs ys i j bs xs.length ys.length) :
    Run xs ys i j (stretchesFrom i j xs.length ys.length bs) xs.length ys.length := by
  induction bs generalizing i j with
  | nil =>
    cases h with
    | nil left_le right_le bare =>
      rw [stretchesFrom]
      split
      case isTrue hmore =>
        exact .cons rfl rfl ⟨left_le, right_le, Nat.le_refl _, Nat.le_refl _, by
          simp, fun _ => hmore, fun _ _ _ => bare⟩ (by simp)
          (.nil _ _)
      case isFalse hnone =>
        obtain rfl : i = xs.length := by omega
        obtain rfl : j = ys.length := by omega
        exact .nil _ _
  | cons b bs ih =>
    cases h with
    | cons left_le right_le pos same rest =>
      obtain ⟨hl, hr⟩ := rest.le
      have hblock :
        Run xs ys b.left b.right (⟨true, b.left, b.left + b.size, b.right, b.right + b.size⟩ ::
          stretchesFrom (b.left + b.size) (b.right + b.size) xs.length ys.length bs) xs.length
            ys.length :=
        .cons rfl rfl ((sameUpTo_of_block same hl hr).fits (by omega)) (by simp) (ih rest)
      rw [stretchesFrom]
      split
      case isTrue hmore =>
        refine .cons rfl rfl
          ⟨left_le, right_le, by
          dsimp only; omega, by dsimp only; omega, by simp, fun _ => hmore, ?_⟩ ?_ hblock
        · -- A block follows, so the change does not reach the ends.
          intro _ hend
          dsimp only at hend
          omega
        · rintro - next ⟨⟩
          rfl
      case isFalse hnone =>
        obtain rfl : i = b.left := by omega
        obtain rfl : j = b.right := by omega
        exact hblock

end Stretches

/-- The hunks of two lists of lines lead from the one to the other, and each of them holds a change.
-/
theorem hunks_covers (xs ys : List Text) :
    Covers xs ys 0 0 (hunks xs ys) xs.length ys.length ∧ ∀ ss ∈ hunks xs ys, isHunk ss = true := by
  obtain ⟨i, j, hfront, hrun⟩ := trimFront_run (stretchesFrom_run (commonBlocks_blocks xs ys))
    (Nat.le_refl _) (Nat.le_refl _)
  obtain ⟨e, f, hrun, hback⟩ := trimBack_run hrun (Nat.le_refl _) (Nat.le_refl _)
  have hnil : Run xs ys i j ([] : List Stretch).reverse i j := .nil i j
  have hcovers :=
    hunksFrom_covers hnil hrun (by rintro s ⟨⟩) (Nat.le_trans hback.left_le hback.left_end)
    (Nat.le_trans hback.right_le hback.right_end)
  exact ⟨((hcovers.before hfront).behind hback).filter, fun ss hss => (List.mem_filter.mp hss).2⟩

section Carrying

open Carried

theorem slice_cons {α : Type} {xs : List α} {i k : Nat} (hik : i < k) (hk : k ≤ xs.length) :
    ∃ x, xs[i]? = some x ∧ Text.slice xs i k = x :: Text.slice xs (i + 1) k := by
  have hi : i < (xs.take k).length := by
    rw [List.length_take]
    omega
  refine ⟨xs[i], List.getElem?_eq_getElem _, ?_⟩
  rw [Text.slice, List.drop_eq_getElem_cons hi, List.getElem_take, Text.slice]

theorem context_lines {i j i' j' : Nat} (h : SameUpTo xs ys i j i' j') (left right : Nat) :
    ((Text.slice xs i i').map (' ' :: ·)).foldlM (line xs)
      ⟨i, i' - i + left, j' - j + right, ys.take j⟩ =
      some ⟨i', left, right, ys.take j'⟩ := by
  have hlen := h.length_eq
  induction hn : i' - i generalizing i j with
  | zero =>
    obtain rfl : i = i' := Nat.le_antisymm h.left_le (by omega)
    obtain rfl : j = j' := Nat.le_antisymm h.right_le (by omega)
    rw [slice_self, Nat.sub_self]
    simp
  | succ n ih =>
    obtain ⟨x, hx, hleft⟩ := slice_cons (show i < i' by omega) h.left_end
    obtain ⟨y, hy, hright⟩ := slice_cons (show j < j' by omega) h.right_end
    obtain ⟨rfl, -⟩ : x = y ∧ _ := List.cons.inj (hleft.symm.trans (h.same.trans hright))
    have hrest := (h.cut (show 1 ≤ i' - i by omega)).2
    have hi : i' - (i + 1) = n := by omega
    have hj : j' - j + right = (j' - (j + 1) + right) + 1 := by omega
    rw [hleft, List.map_cons, List.foldlM_cons, Nat.succ_add, hj, line_keep _ _ hx hy]
    exact ih hrest hrest.length_eq hi

theorem removed_lines {i i' : Nat} (hi : i ≤ i') (hi' : i' ≤ xs.length) (left right : Nat)
    (made : List Text) :
    ((Text.slice xs i i').map ('-' :: ·)).foldlM (line xs) ⟨i, i' - i + left, right, made⟩ =
      some ⟨i', left, right, made⟩ := by
  induction hn : i' - i generalizing i with
  | zero =>
    obtain rfl : i = i' := Nat.le_antisymm hi (by omega)
    rw [slice_self]
    simp
  | succ n ih =>
    obtain ⟨x, hx, hleft⟩ := slice_cons (show i < i' by omega) hi'
    rw [hleft, List.map_cons, List.foldlM_cons, Nat.succ_add, line_remove _ _ hx]
    exact ih (by omega) (by omega)

theorem added_lines {j j' : Nat} (hj : j ≤ j') (hj' : j' ≤ ys.length) (i left right : Nat) :
    ((Text.slice ys j j').map ('+' :: ·)).foldlM (line xs) ⟨i, left, j' - j + right, ys.take j⟩ =
      some ⟨i, left, right, ys.take j'⟩ := by
  induction hn : j' - j generalizing j with
  | zero =>
    obtain rfl : j = j' := Nat.le_antisymm hj (by omega)
    rw [slice_self]
    simp
  | succ n ih =>
    obtain ⟨y, hy, hright⟩ := slice_cons (show j < j' by omega) hj'
    rw [hright, List.map_cons, List.foldlM_cons, Nat.succ_add, line_write _ _ hy]
    exact ih (by omega) (by omega)

theorem stretch_lines {s : Stretch} (h : s.Fits xs ys) (left right : Nat) :
    (stretchLines xs ys s).foldlM (line xs)
      ⟨s.leftStart, s.leftStop - s.leftStart + left, s.rightStop - s.rightStart + right,
        ys.take s.rightStart⟩ =
      some ⟨s.leftStop, left, right, ys.take s.rightStop⟩ := by
  rw [stretchLines]
  split
  case isTrue he => exact context_lines (h.sameUpTo he) left right
  case isFalse =>
    rw [List.foldlM_append, removed_lines h.left_le h.left_end]
    exact added_lines h.right_le h.right_end s.leftStop left right

theorem run_lines {i j e f : Nat} {ss : List Stretch} (h : Run xs ys i j ss e f)
    (left right : Nat) :
    (ss.flatMap (stretchLines xs ys)).foldlM (line xs) ⟨i, e - i + left, f - j + right, ys.take j⟩ =
      some ⟨e, left, right, ys.take f⟩ := by
  induction h generalizing left right with
  | nil => simp
  | @cons s ss i j e f hleft hright fits _ rest ih =>
    subst hleft hright
    obtain ⟨he, hf⟩ := rest.le
    have hl : e - s.leftStart + left = s.leftStop - s.leftStart + (e - s.leftStop + left) := by
      have := fits.left_le
      omega
    have hr : f - s.rightStart + right = s.rightStop - s.rightStart +
        (f - s.rightStop + right) := by
      have := fits.right_le
      omega
    rw [List.flatMap_cons, List.foldlM_append, hl, hr, stretch_lines fits]
    exact ih left right

/-- The lines of hunks that cover the rest of both texts make the rest of the one out of the rest of
the other. -/
theorem covers_lines {i j e f : Nat} {hs : List (List Stretch)} (h : Covers xs ys i j hs e f)
    (hne : ∀ ss ∈ hs, ss ≠ []) :
    ∃ i' j', (hs.flatMap (hunkLines xs ys)).foldlM (line xs) ⟨i, 0, 0, ys.take j⟩ =
      some ⟨i', 0, 0, ys.take j'⟩ ∧
      SameUpTo xs ys i' j' e f := by
  induction h with
  | @done i j e f same => exact ⟨i, j, rfl, same⟩
  | @hunk i j i₁ j₁ i₂ j₂ e f ss hs gap run _ _ ih =>
    obtain ⟨ne, hne⟩ := List.forall_mem_cons.mp hne
    obtain ⟨i', j', hlines, hsame⟩ := ih hne
    refine ⟨i', j', ?_, hsame⟩
    have hheader := run.header ne
    obtain ⟨leftRange, rightRange, hread, hleft, hleft', hright, hright'⟩ :=
      readHeader_written i₁ i₂ j₁ j₂
    have hlength : (ys.take j).length = j := by
      rw [List.length_take, Nat.min_eq_left (Nat.le_trans gap.right_le gap.right_end)]
    have hmade : ys.take j ++ Text.slice xs i i₁ = ys.take j₁ := by
      have := slice_append ys (Nat.zero_le j) gap.right_le
      rwa [gap.same]
    have hgap := gap.length_eq
    have hle := gap.right_le
    rw [List.flatMap_cons, hunkLines, hheader, List.cons_append, List.foldlM_cons,
      line_header hread hleft hright gap.left_le gap.left_end _ (by rw [hlength]; omega), hmade,
      hleft', hright']
    simp only [Option.bind_eq_bind, Option.bind_some]
    rw [List.foldlM_append]
    have hrun := run_lines run 0 0
    rw [Nat.add_zero, Nat.add_zero] at hrun
    rw [hrun]
    exact hlines

/-- Hunks that cover both texts make the one out of the other. -/
theorem applyLines_covers {hs : List (List Stretch)} (h : Covers xs ys 0 0 hs xs.length ys.length)
    (hne : ∀ ss ∈ hs, ss ≠ []) :
    applyLines xs (hs.flatMap (hunkLines xs ys)) = some ys := by
  obtain ⟨i, j, hlines, hsame⟩ := covers_lines h hne
  have hrest : xs.drop i = ys.drop j := by
    have := hsame.same
    rwa [slice_full, slice_full] at this
  rw [applyLines, show (⟨0, 0, 0, []⟩ : Carried) = ⟨0, 0, 0, ys.take 0⟩ from rfl, hlines]
  change some (ys.take j ++ xs.drop i) = _
  rw [hrest, List.take_append_drop]

theorem hunks_ne_nil (xs ys : List Text) : ∀ ss ∈ hunks xs ys, ss ≠ [] := by
  rintro ss hss rfl
  exact absurd ((hunks_covers xs ys).2 [] hss) (by decide)

/-- Carried out line by line, the hunks of two lists of lines make the one of the other. -/
theorem applyLines_hunks (xs ys : List Text) :
    applyLines xs ((hunks xs ys).flatMap (hunkLines xs ys)) = some ys :=
  applyLines_covers (hunks_covers xs ys).1 (hunks_ne_nil xs ys)

end Carrying

end PineTools.Diff
