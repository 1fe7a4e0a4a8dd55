import PineTools.Text.Edit

/-! Edits in the order of the text. They are carried out from the last to the first, and what comes
out is the text written from left to right with each replacement in its place. -/
namespace PineTools.Edit

/-- Edits of a text of the given length, none of them before an offset. Between two of them at least
one character stays. -/
def Ordered (length : Nat) (offset : Nat) : List Edit → Prop
  | [] => True
  | e :: es => offset ≤ e.start ∧ e.start ≤ e.stop ∧ e.stop ≤ length ∧
  Ordered length (e.stop + 1) es

def splice (t : Text) (offset : Nat) : List Edit → Text
  | [] => t.drop offset
  | e :: es => Text.slice t offset e.start ++ e.replacement ++ splice t e.stop es

theorem Ordered.weaken {length offset offset' : Nat} {es : List Edit}
    (h : Ordered length offset' es) (hle : offset ≤ offset') : Ordered length offset es := by
  cases es with
  | nil => trivial
  | cons e es => exact ⟨Nat.le_trans hle h.1, h.2⟩

/-- Edits of a text of the given length, none of them before an offset and each behind the end of
the one before it. Their spans may touch. -/
def Chained (length : Nat) (offset : Nat) : List Edit → Prop
  | [] => True
  | e :: es => offset ≤ e.start ∧ e.start ≤ e.stop ∧ e.stop ≤ length ∧ Chained length e.stop es

theorem Chained.start_le {length offset : Nat} {es : List Edit} (h : Chained length offset es) :
    ∀ e ∈ es, offset ≤ e.start := by
  induction es generalizing offset with
  | nil => exact List.forall_mem_nil _
  | cons e es ih =>
    obtain ⟨hstart, hspan, -, hrest⟩ := h
    exact List.forall_mem_cons.mpr
      ⟨hstart, fun d hd => Nat.le_trans (Nat.le_trans hstart hspan) (ih hrest d hd)⟩

theorem Ordered.chained {length offset : Nat} {es : List Edit} (h : Ordered length offset es) :
    Chained length offset es := by
  induction es generalizing offset with
  | nil => trivial
  | cons e es ih =>
    obtain ⟨hstart, hstop, hlen, hrest⟩ := h
    exact ⟨hstart, hstop, hlen, ih (hrest.weaken (Nat.le_succ _))⟩

theorem Ordered.start_le {length offset : Nat} {es : List Edit} (h : Ordered length offset es) :
    ∀ e ∈ es, offset ≤ e.start :=
  h.chained.start_le

theorem Ordered.pairwise {length offset : Nat} {es : List Edit} (h : Ordered length offset es) :
    es.Pairwise fun a b => a.start < b.start := by
  induction es generalizing offset with
  | nil => exact List.Pairwise.nil
  | cons e es ih =>
    obtain ⟨-, hstop, -, hrest⟩ := h
    refine List.Pairwise.cons (fun d hd => ?_) (ih hrest)
    have := hrest.start_le d hd
    omega

theorem slice_append_drop {α : Type} (xs : List α) {i j : Nat} (h : i ≤ j) :
    Text.slice xs i j ++ xs.drop j = xs.drop i := by
  have e : xs.drop j = (xs.drop i).drop (j - i) := by
    rw [List.drop_drop, Nat.add_sub_cancel' h]
  rw [Text.slice, List.drop_take, e, List.take_append_drop]

theorem take_append_slice {α : Type} (xs : List α) {i j : Nat} (h : i ≤ j) :
    xs.take i ++ Text.slice xs i j = xs.take j := by
  have e : xs.take i = (xs.take j).take i := by
    rw [List.take_take, Nat.min_eq_left h]
  rw [Text.slice, e, List.take_append_drop]

theorem foldr_apply (t : Text) {offset : Nat} {es : List Edit} (h : Chained t.length offset es) :
    es.foldr (fun e s => apply s e) t = t.take offset ++ splice t offset es := by
  induction es generalizing offset with
  | nil => exact (List.take_append_drop offset t).symm
  | cons e es ih =>
    obtain ⟨hstart, hstop, hlen, hrest⟩ := h
    have hlength : (t.take e.stop).length = e.stop := by
      rw [List.length_take, Nat.min_eq_left hlen]
    have htake : (t.take e.stop ++ splice t e.stop es).take e.start = t.take e.start := by
      rw [List.take_append_of_le_length (by omega), List.take_take, Nat.min_eq_left hstop]
    have hdrop : (t.take e.stop ++ splice t e.stop es).drop e.stop = splice t e.stop es := by
      rw [List.drop_left' hlength]
    rw [List.foldr_cons, ih hrest, apply, htake, hdrop, splice, ← take_append_slice t hstart]
    simp only [List.append_assoc]

theorem mergeSort_descending (es : List Edit) :
    (es.mergeSort fun a b => decide (b.start ≤ a.start)).Pairwise fun a b => b.start ≤ a.start := by
  refine List.Pairwise.imp of_decide_eq_true (List.pairwise_mergeSort ?_ ?_ es)
  · intro a b c hab hbc
    simp only [decide_eq_true_eq] at hab hbc ⊢
    omega
  · intro a b
    simp only [Bool.or_eq_true, decide_eq_true_eq]
    omega

section Ascending

variable {es sorted : List Edit} (h : sorted.Pairwise fun a b => a.start < b.start)
include h

theorem eq_of_start {a b : Edit} (ha : a ∈ sorted) (hb : b ∈ sorted) (e : a.start = b.start) :
    a = b := by
  induction h with
  | nil => cases ha
  | cons hfirst _ ih =>
    rcases List.mem_cons.mp ha with rfl | ha'
    · rcases List.mem_cons.mp hb with rfl | hb'
      · rfl
      · exact absurd e (Nat.ne_of_lt (hfirst b hb'))
    · rcases List.mem_cons.mp hb with rfl | hb'
      · exact absurd e.symm (Nat.ne_of_lt (hfirst a ha'))
      · exact ih ha' hb'

/-- Edits that start at different offsets are sorted in one way. -/
theorem mergeSort_of_perm (hp : es.Perm sorted) :
    es.mergeSort (fun a b => decide (b.start ≤ a.start)) = sorted.reverse := by
  have hreverse : sorted.reverse.Pairwise fun a b => b.start ≤ a.start := by
    rw [List.pairwise_reverse]
    exact h.imp Nat.le_of_lt
  have hperm :=
    ((List.mergeSort_perm es fun a b => decide (b.start ≤ a.start)).trans hp).trans
      sorted.reverse_perm.symm
  refine hperm.eq_of_pairwise (fun a b ha hb hab hba => ?_) (mergeSort_descending es) hreverse
  exact eq_of_start h (List.mem_reverse.mp (hperm.mem_iff.mp ha)) (List.mem_reverse.mp hb)
    (Nat.le_antisymm hba hab)

theorem applyAll_of_perm (t : Text) (hp : es.Perm sorted) (hchain : Chained t.length 0 sorted) :
    applyAll t es = splice t 0 sorted := by
  rw [applyAll, mergeSort_of_perm h hp, List.foldl_reverse, foldr_apply t hchain]
  rfl

end Ascending

theorem applyAll_eq_splice (t : Text) {es : List Edit} (h : Ordered t.length 0 es) :
    applyAll t es = splice t 0 es :=
  applyAll_of_perm h.pairwise t (List.Perm.refl es) h.chained

theorem splice_cons {t : Text} {offset : Nat} {c : Char} {rest : Text}
    (ht : t.drop offset = c :: rest) {es : List Edit} (h : ∀ e, es.head? = some e →
      offset < e.start) : splice t offset es = c :: splice t (offset + 1) es := by
  have hrest : t.drop (offset + 1) = rest := by
    rw [← List.drop_drop, ht]
    rfl
  cases es with
  | nil => exact ht.trans (congrArg _ hrest.symm)
  | cons e es =>
    obtain ⟨k, hk⟩ : ∃ k, e.start - offset = k + 1 :=
      ⟨e.start - offset - 1, by have := h e rfl; omega⟩
    have hk' : e.start - (offset + 1) = k := by omega
    rw [splice, splice, Text.slice, Text.slice, List.drop_take, List.drop_take, ht, hrest, hk, hk']
    rfl

theorem head?_splice (t : Text) {offset : Nat} {es : List Edit}
    (h : Ordered t.length (offset + 1) es) :
    (splice t offset es).head? = (t.drop offset).head? := by
  cases es with
  | nil => rfl
  | cons e es =>
    obtain ⟨hstart, hstop, hlen, -⟩ := h
    have hslice : Text.slice t offset e.start ≠ [] := by
      rw [Text.slice, Ne, List.drop_eq_nil_iff, List.length_take]
      omega
    have hhead (rest : Text) : (Text.slice t offset e.start ++ rest).head? =
        (Text.slice t offset e.start).head? := by
      rw [List.head?_append, Option.or_of_isSome (List.isSome_head?.mpr hslice)]
    rw [splice, List.append_assoc, hhead, ← slice_append_drop t (by omega : offset ≤ e.start),
      hhead]

end PineTools.Edit
