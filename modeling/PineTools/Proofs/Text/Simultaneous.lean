import PineTools.Proofs.Text.Splices

/-! Edits carried out at once. Where the spans of edits lie apart it does not matter in which order
the edits come: what comes out can be written in one pass over the text, with each replacement where
its span starts and every character outside of the spans in its place. Spans may be empty, and they
may touch. -/
namespace PineTools.Edit

/-- Edits of a text of the given length that leave each other alone: no two start together, and of
any two one ends before the other starts or just there. -/
structure Separate (length : Nat) (edits : List Edit) : Prop where
  inside : ∀ e ∈ edits, e.start ≤ e.stop ∧ e.stop ≤ length
  distinct : edits.Pairwise fun a b => a.start ≠ b.start
  apart : edits.Pairwise fun a b => a.stop ≤ b.start ∨ b.stop ≤ a.start

def writtenAt (edits : List Edit) (offset : Nat) : Text :=
  (edits.filter fun e => e.start == offset).flatMap Edit.replacement

def covers (edits : List Edit) (offset : Nat) : Bool :=
  edits.any fun e => decide (e.start ≤ offset) && decide (offset < e.stop)

/-- All edits at once in the rest of a text that starts at the given offset. -/
def writtenFrom (edits : List Edit) (offset : Nat) : Text → Text
  | [] => writtenAt edits offset
  | c :: cs => writtenAt edits offset ++
    ((if covers edits offset then [] else [c]) ++ writtenFrom edits (offset + 1) cs)

/-- The text with all edits carried out at once, from left to right. -/
def simultaneous (t : Text) (edits : List Edit) : Text := writtenFrom edits 0 t

section Reordered

variable {length : Nat} {edits es : List Edit}

theorem Separate.of_perm (h : Separate length edits) (hp : es.Perm edits) : Separate length es where
  inside e he := h.inside e (hp.mem_iff.mp he)
  distinct := hp.symm.pairwise h.distinct fun hab => hab.symm
  apart := hp.symm.pairwise h.apart fun hab => hab.symm

theorem writtenAt_perm (h : Separate length edits) (hp : es.Perm edits) (offset : Nat) :
    writtenAt es offset = writtenAt edits offset := by
  have hone {es : List Edit} (h : Separate length es) :
      (es.filter fun e => e.start == offset).Pairwise fun _ _ => False := by
    refine (h.distinct.filter _).imp_of_mem fun {a b} ha hb hab => hab ?_
    rw [beq_iff_eq.mp (List.mem_filter.mp ha).2, beq_iff_eq.mp (List.mem_filter.mp hb).2]
  have hsame : (es.filter fun e => e.start == offset) = edits.filter fun e => e.start == offset :=
    List.Perm.eq_of_pairwise (fun _ _ _ _ habsurd => habsurd.elim) (hone (h.of_perm hp)) (hone h)
      (hp.filter _)
  rw [writtenAt, hsame, ← writtenAt]

theorem writtenFrom_perm (h : Separate length edits) (hp : es.Perm edits) (offset : Nat)
    (t : Text) :
    writtenFrom es offset t = writtenFrom edits offset t := by
  induction t generalizing offset with
  | nil => exact writtenAt_perm h hp offset
  | cons c cs ih =>
    have hcovers : covers es offset = covers edits offset := hp.any_eq
    rw [writtenFrom, writtenFrom, writtenAt_perm h hp, hcovers, ih]

theorem Separate.chained (h : Separate length edits) (hsorted : edits.Pairwise fun a b => a.start <
    b.start) {offset : Nat} (hoffset : ∀ e ∈ edits, offset ≤ e.start) :
      Chained length offset edits := by
  induction edits generalizing offset with
  | nil => trivial
  | cons e es ih =>
    obtain ⟨hfirst, hrest⟩ := List.pairwise_cons.mp hsorted
    obtain ⟨happart, happarts⟩ := List.pairwise_cons.mp h.apart
    obtain ⟨hin, hins⟩ := List.forall_mem_cons.mp h.inside
    refine ⟨hoffset e List.mem_cons_self, hin.1, hin.2,
      ih ⟨hins, (List.pairwise_cons.mp h.distinct).2, happarts⟩ hrest ?_⟩
    -- The later one of two edits cannot end where the earlier one starts, since it starts behind
    -- that.
    intro d hd
    have hlater := hfirst d hd
    have hspan := (hins d hd).1
    have := happart d hd
    omega

end Reordered

section Chain

variable {e : Edit} {es : List Edit} {offset : Nat}

theorem writtenAt_eq_nil (h : ∀ e ∈ es, e.start ≠ offset) : writtenAt es offset = [] := by
  rw [writtenAt, List.filter_eq_nil_iff.mpr fun e he => by simpa using h e he]
  rfl

theorem covers_eq_false (h : ∀ e ∈ es, offset < e.start ∨ e.stop ≤ offset) :
    covers es offset = false := by
  refine List.any_eq_false.mpr fun e he hcovered => ?_
  have hout := h e he
  rw [Bool.and_eq_true, decide_eq_true_eq, decide_eq_true_eq] at hcovered
  omega

theorem writtenFrom_before (kept t : Text) (h : ∀ e ∈ es, offset + kept.length ≤ e.start) :
    writtenFrom es offset (kept ++ t) = kept ++ writtenFrom es (offset + kept.length) t := by
  induction kept generalizing offset with
  | nil => rfl
  | cons c cs ih =>
    rw [List.length_cons] at h
    rw [List.cons_append, writtenFrom, writtenAt_eq_nil fun e he => by have := h e he; omega,
      covers_eq_false fun e he => .inl (by have := h e he; omega), ih fun e he => by
        have := h e he; omega, List.length_cons,
      Nat.add_assoc offset, Nat.add_comm 1]
    rfl

/-- Behind its span an edit no longer shows. -/
theorem writtenFrom_behind (hstart : e.start < offset) (hstop : e.stop ≤ offset) (t : Text) :
    writtenFrom (e :: es) offset t = writtenFrom es offset t := by
  have hat (offset : Nat) (h : e.start < offset) : writtenAt (e :: es) offset =
      writtenAt es offset := by
    rw [writtenAt, List.filter_cons_of_neg (by simpa using Nat.ne_of_lt h), ← writtenAt]
  induction t generalizing offset with
  | nil => exact hat offset hstart
  | cons c cs ih =>
    have hcovers : covers (e :: es) offset = covers es offset := by
      rw [covers, List.any_cons, decide_eq_false (Nat.not_lt_of_le hstop), Bool.and_false,
        Bool.false_or, ← covers]
    rw [writtenFrom, writtenFrom, hat offset hstart, hcovers, ih (Nat.lt_succ_of_lt hstart)
      (Nat.le_succ_of_le hstop)]

theorem writtenFrom_inside (hstart : e.start < offset) (hes : ∀ d ∈ es, e.stop ≤ d.start)
    (hidden t : Text) (hstop : offset + hidden.length = e.stop) :
    writtenFrom (e :: es) offset (hidden ++ t) = writtenFrom es e.stop t := by
  induction hidden generalizing offset with
  | nil =>
    rw [List.length_nil, Nat.add_zero] at hstop
    rw [List.nil_append, writtenFrom_behind hstart (Nat.le_of_eq hstop.symm), hstop]
  | cons c cs ih =>
    rw [List.length_cons] at hstop
    have hcovers : covers (e :: es) offset = true := by
      refine List.any_eq_true.mpr ⟨e, List.mem_cons_self, ?_⟩
      rw [Bool.and_eq_true, decide_eq_true_eq, decide_eq_true_eq]
      omega
    have hat : writtenAt (e :: es) offset = [] := by
      refine writtenAt_eq_nil (List.forall_mem_cons.mpr ⟨Nat.ne_of_lt hstart, fun d hd => ?_⟩)
      have := hes d hd
      omega
    rw [List.cons_append, writtenFrom, hat, hcovers, ih (Nat.lt_succ_of_lt hstart) (by omega)]
    rfl

/-- An edit is written where it starts, and what its span holds is passed over. -/
theorem writtenFrom_span (hes : ∀ d ∈ es, e.start < d.start ∧ e.stop ≤ d.start) (hidden t : Text)
    (hstop : e.start + hidden.length = e.stop) :
    writtenFrom (e :: es) e.start (hidden ++ t) = e.replacement ++ writtenFrom es e.stop t := by
  have hnone : writtenAt es e.start = [] := writtenAt_eq_nil fun d hd => Nat.ne_of_gt (hes d hd).1
  have hat : writtenAt (e :: es) e.start = e.replacement := by
    have hfilter : ((e :: es).filter fun d => d.start == e.start) = e :: es.filter fun d =>
        d.start == e.start :=
      List.filter_cons_of_pos (beq_self_eq_true e.start)
    rw [writtenAt, hfilter, List.flatMap_cons, ← writtenAt, hnone, List.append_nil]
  cases hidden with
  | cons c cs =>
    rw [List.length_cons] at hstop
    have hcovers : covers (e :: es) e.start = true := by
      refine List.any_eq_true.mpr ⟨e, List.mem_cons_self, ?_⟩
      rw [Bool.and_eq_true, decide_eq_true_eq, decide_eq_true_eq]
      omega
    rw [List.cons_append, writtenFrom, hat, hcovers,
      writtenFrom_inside (Nat.lt_succ_self _) (fun d hd => (hes d hd).2) cs t (by omega)]
    rfl
  | nil =>
    -- An empty span hides nothing: the character behind it is kept, and no other edit starts before
    -- it.
    rw [List.length_nil, Nat.add_zero] at hstop
    rw [List.nil_append, ← hstop]
    cases t with
    | nil => rw [writtenFrom, writtenFrom, hat, hnone, List.append_nil]
    | cons c cs =>
      have hcovers : covers (e :: es) e.start = covers es e.start := by
        rw [covers, List.any_cons, decide_eq_false (Nat.not_lt_of_le (Nat.le_of_eq hstop.symm)),
          Bool.and_false, Bool.false_or, ← covers]
      rw [writtenFrom, writtenFrom, hat, hnone, hcovers,
        writtenFrom_behind (Nat.lt_succ_self _) (Nat.le_succ_of_le (Nat.le_of_eq hstop.symm))]
      rfl

theorem writtenFrom_nil (offset : Nat) (t : Text) : writtenFrom [] offset t = t := by
  have h := @writtenFrom_before [] offset t [] (List.forall_mem_nil _)
  rwa [List.append_nil, writtenFrom, writtenAt_eq_nil (List.forall_mem_nil _), List.append_nil] at h

/-- Edits one behind the other are spliced into the text where a single pass writes them. -/
theorem splice_eq_writtenFrom {t : Text} (h : Chained t.length offset es)
    (hsorted : es.Pairwise fun a b => a.start < b.start) :
    splice t offset es = writtenFrom es offset (t.drop offset) := by
  induction es generalizing offset with
  | nil => exact (writtenFrom_nil offset _).symm
  | cons e es ih =>
    obtain ⟨hstart, hspan, hlen, hrest⟩ := h
    obtain ⟨hfirst, hsorted⟩ := List.pairwise_cons.mp hsorted
    have hbehind : ∀ d ∈ es, e.start < d.start ∧ e.stop ≤ d.start :=
      fun d hd => ⟨hfirst d hd, hrest.start_le d hd⟩
    have hkept : offset + (Text.slice t offset e.start).length = e.start := by
      rw [Text.slice, List.length_drop, List.length_take]
      omega
    have hhidden : e.start + (Text.slice t e.start e.stop).length = e.stop := by
      rw [Text.slice, List.length_drop, List.length_take]
      omega
    calc splice t offset (e :: es)
        = Text.slice t offset e.start ++
          (e.replacement ++ writtenFrom es e.stop (t.drop e.stop)) := by
          rw [splice, ih hrest hsorted, List.append_assoc]
      _ = Text.slice t offset e.start ++ writtenFrom (e :: es) e.start (t.drop e.start) := by
          rw [← slice_append_drop t hspan, writtenFrom_span hbehind _ _ hhidden]
      _ = writtenFrom (e :: es) offset (t.drop offset) := by
          rw [← slice_append_drop t hstart, writtenFrom_before _ _ ?_, hkept]
          rw [hkept]
          exact List.forall_mem_cons.mpr ⟨Nat.le_refl _, fun d hd => Nat.le_of_lt (hfirst d hd)⟩

end Chain

section Simultaneous

variable {length : Nat} {edits : List Edit}

/-- Edits that lie apart can be brought into the order of their starts. -/
theorem Separate.exists_ascending (h : Separate length edits) :
    ∃ sorted : List Edit, sorted.Perm edits ∧ sorted.Pairwise fun a b => a.start < b.start := by
  have hperm := List.mergeSort_perm edits fun a b => decide (b.start ≤ a.start)
  refine ⟨_, (List.reverse_perm _).trans hperm, List.pairwise_reverse.mpr ?_⟩
  refine ((mergeSort_descending edits).and (h.of_perm hperm).distinct).imp fun ⟨hle, hne⟩ => ?_
  exact Nat.lt_of_le_of_ne hle hne.symm

/-- Edits that lie apart may come in any order: carried out one after the other they give the text
with all of them carried out at once, where each span is replaced and everything between the spans
is kept. -/
theorem applyAll_simultaneous (t : Text) (h : Separate t.length edits) (es : List Edit)
    (hp : es.Perm edits) :
    applyAll t es = simultaneous t edits := by
  obtain ⟨sorted, hperm, hascending⟩ := h.exists_ascending
  have hchain : Chained t.length 0 sorted := (h.of_perm hperm).chained hascending fun e _ =>
    Nat.zero_le e.start
  calc applyAll t es
      = splice t 0 sorted := applyAll_of_perm hascending t (hp.trans hperm.symm) hchain
    _ = writtenFrom sorted 0 t := splice_eq_writtenFrom hchain hascending
    _ = simultaneous t edits := writtenFrom_perm h hperm 0 t

/-- Edits out of order, with empty spans at both ends of the text and right behind another span. -/
theorem applyAll_simultaneous_touching :
    let t := "abcdef".toList
    let edits : List Edit :=
      [⟨6, 6, "!".toList⟩, ⟨1, 3, "XY".toList⟩, ⟨4, 6, []⟩, ⟨3, 3, "-".toList⟩, ⟨0, 0, ">".toList⟩]
    Separate t.length edits ∧ edits.reverse.Perm edits ∧ applyAll t edits = ">aXY-d!".toList ∧
      applyAll t edits.reverse = ">aXY-d!".toList := by
  intro t edits
  have hseparate : Separate t.length edits := ⟨by decide, by decide, by decide⟩
  have hwritten : simultaneous t edits = ">aXY-d!".toList := by decide
  refine ⟨hseparate, edits.reverse_perm, ?_, ?_⟩
  · rw [applyAll_simultaneous t hseparate edits (List.Perm.refl edits), hwritten]
  · rw [applyAll_simultaneous t hseparate edits.reverse edits.reverse_perm, hwritten]

end Simultaneous

end PineTools.Edit
