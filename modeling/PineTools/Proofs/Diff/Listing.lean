import PineTools.Proofs.Diff.Hunks
import PineTools.Proofs.Text.PhysicalLines

/-! Reading a listing. A listing is written line by line and read line by line. It is read as it was
written if no line of it but the last lacks its break, and that goes wrong in one case only: an open
last line of the old text that is taken away runs on into the line that comes in for it. -/
namespace PineTools.Diff

open Text (Ended Open Unbroken endsOpen physicalLines)

/-- Lines as a text is cut into them: none but the last may be open. -/
structure Cut (ls : List Text) : Prop where
  ended : ∀ k l, ls[k]? = some l → k + 1 < ls.length → Ended l
  either : ∀ l ∈ ls, Ended l ∨ Open l

def Readable (ls : List Text) : Prop := ∀ l ∈ ls.dropLast, Ended l

/-- An open line `x` that is taken away stands before a line that comes in. -/
def Torn (x : Text) (ls : List Text) : Prop :=
  ∃ before y behind, ls = before ++ ('-' :: x) :: ('+' :: y) :: behind ∧ ∀ l ∈ before, Ended l

section Lines

theorem cut_physicalLines (t : Text) : Cut (physicalLines t) := by
  induction t using Text.physicalLines_induction with
  | nil => exact ⟨fun k l h => (by cases h), fun l h => (by cases h)⟩
  | last w hw =>
    rw [Text.physicalLines_of_open hw]
    refine ⟨?_, fun l hl => .inr (List.mem_singleton.mp hl ▸ hw)⟩
    intro k l hl hk
    rw [List.length_singleton] at hk
    omega
  | more l t hl e ih =>
    rw [e]
    refine ⟨?_, List.forall_mem_cons.mpr ⟨.inl hl, ih.either⟩⟩
    intro k l' hl' hk
    cases k with
    | zero =>
      cases hl'
      exact hl
    | succ k => exact ih.ended k l' hl' (Nat.lt_of_succ_lt_succ hk)

variable {a ls : List Text}

theorem Readable.append (h : Readable ls) (ha : ∀ l ∈ a, Ended l) : Readable (a ++ ls) := by
  intro l hl
  by_cases hls : ls = []
  · rw [hls, List.append_nil] at hl
    exact ha l (List.dropLast_subset a hl)
  · rw [List.dropLast_append_of_ne_nil hls] at hl
    obtain hl | hl := List.mem_append.mp hl
    · exact ha l hl
    · exact h l hl

theorem Torn.append {x : Text} (h : Torn x ls) (ha : ∀ l ∈ a, Ended l) : Torn x (a ++ ls) := by
  obtain ⟨before, y, behind, rfl, hbefore⟩ := h
  refine ⟨a ++ before, y, behind, by rw [List.append_assoc], ?_⟩
  intro l hl
  obtain hl | hl := List.mem_append.mp hl
  · exact ha l hl
  · exact hbefore l hl

/-- There is but one line without a break in what can be read. -/
theorem Readable.eq_of_open (h : Readable ls) {l l' : Text} (hl : l ∈ ls) (hl' : l' ∈ ls)
    (ho : Open l) (ho' : Open l') : l = l' := by
  have hlast {l : Text} (hl : l ∈ ls) (ho : Open l) : ls.getLast? = some l := by
    have hne : ls ≠ [] := List.ne_nil_of_mem hl
    rw [← List.dropLast_concat_getLast hne] at hl
    obtain hl | hl := List.mem_append.mp hl
    · exact absurd (h l hl) ho.not_ended
    · rw [List.mem_singleton.mp hl]
      exact List.getLast?_eq_some_getLast hne
  exact Option.some.inj ((hlast hl ho).symm.trans (hlast hl' ho'))

end Lines

variable (xs ys : List Text)

/-- The lines of a listing can be read, or an open last line for which there is no other one is
torn. -/
def Reads (ls : List Text) : Prop :=
  Readable ls ∨ ∃ x, Torn x ls ∧ Open x ∧ xs.getLast? = some x ∧ ys ≠ [] ∧
    ¬ Seed xs ys (xs.length - 1) (ys.length - 1)

/-- There are lines to come, or none on either side. -/
def Ahead (i j : Nat) (ls : List Text) : Prop :=
  (ls = [] → i = xs.length → j = ys.length) ∧ (ls ≠ [] → i < xs.length ∨ j < ys.length)

variable {xs ys}

theorem Reads.append {a ls : List Text} (h : Reads xs ys ls) (ha : ∀ l ∈ a, Ended l) :
    Reads xs ys (a ++ ls) := by
  obtain h | ⟨x, h, hx⟩ := h
  · exact .inl (h.append ha)
  · exact .inr ⟨x, h.append ha, hx⟩

section Slices

variable {i j : Nat}

theorem mem_slice {l : Text} (h : l ∈ Text.slice xs i j) :
    ∃ k, i ≤ k ∧ k < j ∧ xs[k]? = some l := by
  obtain ⟨k, hk⟩ := List.getElem?_of_mem h
  rw [Text.slice, List.getElem?_drop, List.getElem?_take] at hk
  split at hk
  case isTrue hlt => exact ⟨i + k, Nat.le_add_right i k, hlt, hk⟩
  case isFalse => cases hk

theorem Cut.ended_marked (hcut : Cut xs) {c : Char} (hc : Text.isLineBreak c = false)
    (hj : j < xs.length) :
    ∀ l ∈ (Text.slice xs i j).map (c :: ·), Ended l := by
  intro l hl
  obtain ⟨l, hmem, rfl⟩ := List.mem_map.mp hl
  obtain ⟨k, -, hk, hkl⟩ := mem_slice hmem
  exact (hcut.ended k l hkl (by omega)).cons hc

theorem slice_end (hi : i < xs.length) : ∃ x, xs[xs.length - 1]? = some x ∧
    Text.slice xs i xs.length = Text.slice xs i (xs.length - 1) ++ [x] := by
  obtain ⟨x, hx, hlast⟩ := slice_cons (show xs.length - 1 < xs.length by omega) (Nat.le_refl _)
  refine ⟨x, hx, ?_⟩
  rw [← slice_append xs (show i ≤ xs.length - 1 by omega) (Nat.sub_le _ 1), hlast,
    Nat.sub_add_cancel (by omega), slice_self]

theorem Cut.readable_marked (hcut : Cut xs) {c : Char} (hc : Text.isLineBreak c = false)
    (hj : j ≤ xs.length) :
    Readable ((Text.slice xs i j).map (c :: ·)) := by
  obtain hlt | rfl := Nat.lt_or_eq_of_le hj
  · intro l hl
    exact hcut.ended_marked hc hlt l (List.dropLast_subset _ hl)
  by_cases hi : i < xs.length
  · obtain ⟨x, -, hlast⟩ := slice_end hi
    rw [hlast, List.map_append, Readable, List.map_singleton, List.dropLast_concat]
    exact hcut.ended_marked hc (by omega)
  · rw [slice_full, List.drop_eq_nil_of_le (Nat.le_of_not_lt hi)]
    intro l hl
    cases hl

end Slices

variable {i j e f : Nat} {s : Stretch} {ss : List Stretch} {hs : List (List Stretch)}
    {ls : List Text}

/-- Equal lines can be read: where the text ends with an open line and something follows, the other
text goes on, and they stand there too. -/
theorem Reads.equal (hx : Cut xs) (hy : Cut ys) (hfits : s.Fits xs ys) (hequal : s.equal = true)
    (h : Reads xs ys ls) (hahead : Ahead xs ys s.leftStop s.rightStop ls) :
    Reads xs ys ((Text.slice xs s.leftStart s.leftStop).map (' ' :: ·) ++ ls) := by
  obtain hlt | hend := Nat.lt_or_eq_of_le hfits.left_end
  · exact h.append (hx.ended_marked (by decide) hlt)
  by_cases hnil : ls = []
  · rw [hnil, List.append_nil]
    exact .inl (hx.readable_marked (by decide) hfits.left_end)
  · have hright : s.rightStop < ys.length := by
      obtain hlt | hlt := hahead.2 hnil
      · exact absurd hlt (by omega)
      · exact hlt
    rw [(hfits.same hequal).2]
    exact h.append (hy.ended_marked (by decide) hright)

/-- A change that reaches both ends can be read unless the last line that is taken away is open and
another one comes in for it. -/
theorem reads_last_change (hx : Cut xs) (hy : Cut ys) (hfits : s.Fits xs ys)
    (hequal : s.equal = false) (hleft : s.leftStop = xs.length) (hright : s.rightStop = ys.length) :
    Reads xs ys ((Text.slice xs s.leftStart s.leftStop).map ('-' :: ·) ++
      (Text.slice ys s.rightStart s.rightStop).map ('+' :: ·)) := by
  have hadded : Readable ((Text.slice ys s.rightStart s.rightStop).map ('+' :: ·)) :=
    hy.readable_marked (by decide) hfits.right_end
  by_cases hremoves : s.leftStart < xs.length
  case neg =>
    rw [hleft, slice_full, List.drop_eq_nil_of_le (Nat.le_of_not_lt hremoves)]
    exact .inl hadded
  by_cases hadds : s.rightStart < ys.length
  case neg =>
    rw [hright, slice_full ys, List.drop_eq_nil_of_le (Nat.le_of_not_lt hadds), List.map_nil,
      List.append_nil]
    exact .inl (hx.readable_marked (by decide) hfits.left_end)
  obtain ⟨x, hlast, hslice⟩ := slice_end hremoves
  have hbefore := @Cut.ended_marked xs s.leftStart (xs.length - 1) hx '-' (by decide) (by omega)
  obtain hended | hopen := hx.either x (List.mem_of_getElem? hlast)
  · rw [hleft, hslice, List.map_append, List.append_assoc]
    have hone : ∀ l ∈ [x].map ('-' :: ·), Ended l := by
      simpa using hended.cons (by decide)
    exact .inl ((hadded.append hone).append hbefore)
  · obtain ⟨y, -, hadd⟩ := slice_cons (show s.rightStart < s.rightStop by omega) hfits.right_end
    refine .inr ⟨x, ⟨_, y, (Text.slice ys (s.rightStart + 1) s.rightStop).map ('+' :: ·), ?_,
      hbefore⟩, hopen, ?_, ?_, ?_⟩
    · rw [hleft, hslice, hadd, List.map_append, List.append_assoc]
      rfl
    · rw [List.getLast?_eq_getElem?]
      exact hlast
    · rintro rfl
      exact absurd hadds (Nat.not_lt_zero _)
    · exact hfits.bare hequal hleft hright _ _ (by dsimp only; omega) (by dsimp only; omega)
        (by dsimp only; omega)
        (by dsimp only; omega)

/-- The lines of a stretch can be read, or the last line is torn in it. -/
theorem Reads.stretch (hx : Cut xs) (hy : Cut ys) (hfits : s.Fits xs ys) (h : Reads xs ys ls)
    (hahead : Ahead xs ys s.leftStop s.rightStop ls)
    (hchange : s.equal = false → ls ≠ [] → s.leftStop < xs.length ∧ s.rightStop < ys.length) :
    Reads xs ys (stretchLines xs ys s ++ ls) := by
  rw [stretchLines]
  split
  case isTrue hequal => exact h.equal hx hy hfits hequal hahead
  case isFalse hequal =>
    rw [Bool.not_eq_true] at hequal
    by_cases hnil : ls = []
    case neg =>
      obtain ⟨hl, hr⟩ := hchange hequal hnil
      rw [List.append_assoc]
      exact (h.append (hy.ended_marked (by decide) hr)).append (hx.ended_marked (by decide) hl)
    rw [hnil, List.append_nil]
    obtain hlt | hend := Nat.lt_or_eq_of_le hfits.left_end
    · exact .inl
        ((hy.readable_marked (by decide) hfits.right_end).append (hx.ended_marked (by decide) hlt))
    · exact reads_last_change hx hy hfits hequal hend (hahead.1 hnil hend)

theorem Stretch.Fits.lines_ne_nil (h : s.Fits xs ys) : stretchLines xs ys s ≠ [] := by
  have hleft := slice_length xs (i := s.leftStart) h.left_end
  have hright := slice_length ys (i := s.rightStart) h.right_end
  rw [stretchLines]
  split
  case isTrue hequal =>
    have := (h.same hequal).1
    rw [ne_eq, List.map_eq_nil_iff, ← List.length_eq_zero_iff]
    omega
  case isFalse hequal =>
    have := h.changed (Bool.not_eq_true _ ▸ hequal)
    rw [ne_eq, List.append_eq_nil_iff, List.map_eq_nil_iff, List.map_eq_nil_iff,
      ← List.length_eq_zero_iff, ← List.length_eq_zero_iff]
    omega

theorem Ahead.stretch (hs : s.Fits xs ys) :
    Ahead xs ys s.leftStart s.rightStart (stretchLines xs ys s ++ ls) := by
  refine ⟨fun hnil => absurd (List.append_eq_nil_iff.mp hnil).1 hs.lines_ne_nil, fun _ => ?_⟩
  have hleft := hs.left_end
  have hright := hs.right_end
  cases hequal : s.equal with
  | true =>
    have := (hs.same hequal).1
    omega
  | false =>
    have := hs.changed hequal
    omega

theorem Reads.run (hx : Cut xs) (hy : Cut ys) (hrun : Run xs ys i j ss e f) (h : Reads xs ys ls)
    (hahead : Ahead xs ys e f ls) (hlast : ∀ s, ss.getLast? = some s → s.equal = false → ls = []) :
    Reads xs ys (ss.flatMap (stretchLines xs ys) ++ ls) ∧
    Ahead xs ys i j (ss.flatMap (stretchLines xs ys) ++ ls) := by
  induction hrun with
  | nil => exact ⟨h, hahead⟩
  | @cons s ss i j e f left right fits apart rest ih =>
    subst left right
    have hbehind : ∀ s, ss.getLast? = some s → s.equal = false → ls = [] := by
      intro s' hs'
      cases ss with
      | nil => cases hs'
      | cons next ss => exact hlast s' (by rwa [List.getLast?_cons_cons])
    obtain ⟨hreads, hnext⟩ := ih hahead hbehind
    rw [List.flatMap_cons, List.append_assoc]
    refine ⟨hreads.stretch hx hy fits hnext ?_, .stretch fits⟩
    intro hequal hne
    -- Behind a change something equal follows, so that neither side has come to its end.
    cases rest with
    | nil => exact absurd (hlast s rfl hequal) hne
    | cons left' right' fits' _ _ =>
      have hequal' := apart hequal _ rfl
      have hsame := fits'.sameUpTo hequal'
      have hlength := hsame.length_eq
      have hlt := (fits'.same hequal').1
      have hle := hsame.left_end
      have hre := hsame.right_end
      omega

section Headers

theorem isLineBreak_of_isDigit {c : Char} (h : c.isDigit = true) : Text.isLineBreak c = false := by
  have hrange : 48 ≤ c.toNat ∧ c.toNat ≤ 57 := by
    simpa [Char.isDigit, Char.le_def, UInt32.le_iff_toNat_le] using h
  simp [Text.isLineBreak, Text.inRanges]
  omega

theorem unbroken_rangeText (i j : Nat) : Unbroken (rangeText i j).toList := by
  have hdigits (n : Nat) : Unbroken (Nat.toDigits 10 n) := fun c hc =>
    isLineBreak_of_isDigit (Nat.isDigit_of_mem_toDigits (by decide) (by decide) hc)
  rw [rangeText_toList]
  split
  · exact hdigits _
  split
  · exact List.forall_mem_append.mpr ⟨hdigits _, by decide⟩
  · exact List.forall_mem_append.mpr ⟨hdigits _, List.forall_mem_cons.mpr ⟨by decide, hdigits _⟩⟩

theorem ended_header (i e j f : Nat) :
    Ended (s!"@@ -{rangeText i e} +{rangeText j f} @@\n".toList) := by
  refine ⟨"@@ -".toList ++
    ((rangeText i e).toList ++ (" +".toList ++ ((rangeText j f).toList ++ " @@".toList))), ['\n'],
    ?_, .single (by decide), ?_⟩
  · simp only [Unbroken, List.forall_mem_append]
    exact ⟨by decide, unbroken_rangeText i e, by decide, unbroken_rangeText j f, by decide⟩
  · rw [header_toList]
    simp only [List.append_assoc]
    rfl

end Headers

/-- From hunk to hunk: a listing can be read, or the last line is torn in it. -/
theorem covers_reads (hx : Cut xs) (hy : Cut ys) (h : Covers xs ys i j hs xs.length ys.length)
    (hne : ∀ ss ∈ hs, ss ≠ []) :
    Reads xs ys (hs.flatMap (hunkLines xs ys)) ∧
    Ahead xs ys i j (hs.flatMap (hunkLines xs ys)) := by
  generalize he : xs.length = e at h
  generalize hf : ys.length = f at h
  induction h with
  | @done i j e f same =>
    subst he hf
    refine ⟨.inl (by intro l hl; cases hl), fun _ hi => ?_, fun hne => absurd rfl hne⟩
    have hlen := same.length_eq
    have hle := same.right_le
    omega
  | @hunk i j i₁ j₁ i₂ j₂ e f ss hs gap run apart _ ih =>
    obtain ⟨hss, hne⟩ := List.forall_mem_cons.mp hne
    obtain ⟨hreads, hahead⟩ := ih hne he hf
    have hlast : ∀ s, ss.getLast? = some s → s.equal = false →
        hs.flatMap (hunkLines xs ys) = [] := by
      intro s hs' hequal
      cases hs with
      | nil => rfl
      | cons next hs =>
        exact absurd (hequal.symm.trans (apart (List.cons_ne_nil next hs) s hs')) Bool.false_ne_true
    obtain ⟨hreads, hahead⟩ := hreads.run hx hy run hahead hlast
    have hheader : ∀ l ∈ [hunkHeader ss], Ended l := by
      simpa [run.header hss] using ended_header i₁ i₂ j₁ j₂
    rw [List.flatMap_cons, hunkLines]
    refine ⟨hreads.append hheader, fun hnil => (by cases hnil), fun _ => ?_⟩
    have hsome : ss.flatMap (stretchLines xs ys) ++ hs.flatMap (hunkLines xs ys) ≠ [] := by
      cases run with
      | nil => exact absurd rfl hss
      | cons left right fits apart rest =>
        intro hnil
        rw [List.flatMap_cons, List.append_assoc] at hnil
        exact fits.lines_ne_nil (List.append_eq_nil_iff.mp hnil).1
    have := hahead.2 hsome
    have hl := gap.left_le
    have hr := gap.right_le
    omega

section Members

theorem SameUpTo.mem {i' j' : Nat} (h : SameUpTo xs ys i j i' j') :
    (∀ x ∈ Text.slice xs i i', x ∈ ys) ∧ ∀ y ∈ Text.slice ys j j', y ∈ xs := by
  constructor
  · intro x hx
    rw [h.same] at hx
    obtain ⟨k, -, -, hk⟩ := mem_slice hx
    exact List.mem_of_getElem? hk
  · intro y hy
    rw [← h.same] at hy
    obtain ⟨k, -, -, hk⟩ := mem_slice hy
    exact List.mem_of_getElem? hk

/-- What only one side has stands in the listing with its mark. -/
theorem Stretch.Fits.mem_lines (h : s.Fits xs ys) :
    (∀ x ∈ Text.slice xs s.leftStart s.leftStop, x ∉ ys → '-' :: x ∈ stretchLines xs ys s) ∧
      ∀ y ∈ Text.slice ys s.rightStart s.rightStop, y ∉ xs → '+' :: y ∈ stretchLines xs ys s := by
  rw [stretchLines]
  split
  case isTrue hequal =>
    obtain ⟨hleft, hright⟩ := (h.sameUpTo hequal).mem
    exact ⟨fun x hx hno => absurd (hleft x hx) hno, fun y hy hno => absurd (hright y hy) hno⟩
  case isFalse =>
    exact ⟨fun x hx _ => List.mem_append_left _ (List.mem_map_of_mem hx),
      fun y hy _ => List.mem_append_right _ (List.mem_map_of_mem hy)⟩

theorem Run.mem_lines (h : Run xs ys i j ss e f) :
    (∀ x ∈ Text.slice xs i e, x ∉ ys → '-' :: x ∈ ss.flatMap (stretchLines xs ys)) ∧
      ∀ y ∈ Text.slice ys j f, y ∉ xs → '+' :: y ∈ ss.flatMap (stretchLines xs ys) := by
  induction h with
  | nil i j =>
    rw [slice_self, slice_self]
    exact ⟨fun x hx => (by cases hx), fun y hy => (by cases hy)⟩
  | cons left right fits _ rest ih =>
    subst left right
    obtain ⟨hleft, hright⟩ := fits.mem_lines
    rw [List.flatMap_cons, ← slice_append xs fits.left_le rest.le.1,
      ← slice_append ys fits.right_le rest.le.2]
    constructor
    · intro x hx hno
      obtain hx | hx := List.mem_append.mp hx
      · exact List.mem_append_left _ (hleft x hx hno)
      · exact List.mem_append_right _ (ih.1 x hx hno)
    · intro y hy hno
      obtain hy | hy := List.mem_append.mp hy
      · exact List.mem_append_left _ (hright y hy hno)
      · exact List.mem_append_right _ (ih.2 y hy hno)

theorem Covers.le (h : Covers xs ys i j hs e f) : i ≤ e ∧ j ≤ f := by
  induction h with
  | done same => exact ⟨same.left_le, same.right_le⟩
  | hunk gap run _ _ ih =>
    exact ⟨Nat.le_trans gap.left_le (Nat.le_trans run.le.1 ih.1),
      Nat.le_trans gap.right_le (Nat.le_trans run.le.2 ih.2)⟩

theorem Covers.mem_lines (h : Covers xs ys i j hs e f) :
    (∀ x ∈ Text.slice xs i e, x ∉ ys → '-' :: x ∈ hs.flatMap (hunkLines xs ys)) ∧
      ∀ y ∈ Text.slice ys j f, y ∉ xs → '+' :: y ∈ hs.flatMap (hunkLines xs ys) := by
  induction h with
  | done same =>
    exact ⟨fun x hx hno => absurd (same.mem.1 x hx) hno, fun y hy hno =>
      absurd (same.mem.2 y hy) hno⟩
  | hunk gap run _ rest ih =>
    rw [List.flatMap_cons, hunkLines, ← slice_append xs gap.left_le
      (Nat.le_trans run.le.1 rest.le.1), ← slice_append xs run.le.1 rest.le.1,
      ← slice_append ys gap.right_le (Nat.le_trans run.le.2 rest.le.2),
      ← slice_append ys run.le.2 rest.le.2]
    constructor
    · intro x hx hno
      obtain hx | hx := List.mem_append.mp hx
      · exact absurd (gap.mem.1 x hx) hno
      obtain hx | hx := List.mem_append.mp hx
      · exact List.mem_append_left _ (List.mem_cons_of_mem _ (run.mem_lines.1 x hx hno))
      · exact List.mem_append_right _ (ih.1 x hx hno)
    · intro y hy hno
      obtain hy | hy := List.mem_append.mp hy
      · exact absurd (gap.mem.2 y hy) hno
      obtain hy | hy := List.mem_append.mp hy
      · exact List.mem_append_left _ (List.mem_cons_of_mem _ (run.mem_lines.2 y hy hno))
      · exact List.mem_append_right _ (ih.2 y hy hno)

end Members

section Reading

def Written (l : Text) : Prop := (Ended l ∨ Open l) ∧ l.head? ≠ some '\n'

theorem written_marked {l : Text} (h : Ended l ∨ Open l) {c : Char}
    (hc : Text.isLineBreak c = false) : Written (c :: l) := by
  refine ⟨h.imp (·.cons hc) (·.cons hc), ?_⟩
  rintro ⟨⟩
  exact absurd hc (by decide)

theorem written_stretch (hx : Cut xs) (hy : Cut ys) : ∀ l ∈ stretchLines xs ys s, Written l := by
  have hmarked {zs : List Text} (hz : Cut zs) {c : Char} (hc : Text.isLineBreak c = false)
    (a b : Nat) :
      ∀ l ∈ (Text.slice zs a b).map (c :: ·), Written l := by
    intro l hl
    obtain ⟨l, hmem, rfl⟩ := List.mem_map.mp hl
    obtain ⟨k, -, -, hk⟩ := mem_slice hmem
    exact written_marked (hz.either l (List.mem_of_getElem? hk)) hc
  rw [stretchLines]
  split
  · exact hmarked hx (by decide) _ _
  · exact List.forall_mem_append.mpr ⟨hmarked hx (by decide) _ _, hmarked hy (by decide) _ _⟩

theorem written_covers (hx : Cut xs) (hy : Cut ys) (h : Covers xs ys i j hs e f)
    (hne : ∀ ss ∈ hs, ss ≠ []) :
    ∀ l ∈ hs.flatMap (hunkLines xs ys), Written l := by
  induction h with
  | done => exact fun l hl => (by cases hl)
  | @hunk _ _ i₁ j₁ i₂ j₂ _ _ ss _ _ run _ _ ih =>
    obtain ⟨hss, hne⟩ := List.forall_mem_cons.mp hne
    rw [List.flatMap_cons, hunkLines, run.header hss]
    refine List.forall_mem_append.mpr
      ⟨List.forall_mem_cons.mpr ⟨⟨.inl (ended_header i₁ i₂ j₁ j₂), ?_⟩, ?_⟩, ih hne⟩
    · rw [header_toList]
      exact fun h => (by cases h)
    · intro l hl
      obtain ⟨s, -, hl⟩ := List.mem_flatMap.mp hl
      exact written_stretch hx hy l hl

theorem physicalLines_of_readable (h : Readable ls) (hls : ∀ l ∈ ls, Written l) :
    physicalLines ls.flatten = ls := by
  obtain rfl | ⟨init, l, rfl⟩ := List.eq_nil_or_concat ls
  · rfl
  rw [List.concat_eq_append] at h hls ⊢
  rw [Readable, List.dropLast_concat] at h
  have hlast := hls l (List.mem_append_right init (List.mem_singleton_self l))
  have hinit : ∀ l ∈ init, Ended l ∧ l.head? ≠ some '\n' :=
    fun l hl => ⟨h l hl, (hls l (List.mem_append_left _ hl)).2⟩
  have hone : physicalLines l = [l] := by
    obtain hended | hopen := hlast.1
    · have := Text.physicalLines_ended hended (t := []) (by simp)
      rwa [List.append_nil] at this
    · exact Text.physicalLines_of_open hopen
  rw [List.flatten_append, List.flatten_singleton, Text.physicalLines_flatten hinit hlast.2, hone]

theorem physicalLines_of_torn {x : Text} (h : Torn x ls) (hx : Open x) (hls : ∀ l ∈ ls, Written l) :
    ∃ before behind x' rest, ls = before ++ ('-' :: x) :: behind ∧ x' ≠ x ∧
      physicalLines ls.flatten = before ++ ('-' :: x') :: rest := by
  obtain ⟨before, y, behind, rfl, hbefore⟩ := h
  have hended : ∀ l ∈ before, Ended l ∧ l.head? ≠ some '\n' :=
    fun l hl => ⟨hbefore l hl, (hls l (List.mem_append_left _ hl)).2⟩
  have hmark : Open ('-' :: x) := hx.cons (by decide)
  obtain ⟨l, rest, hrest⟩ : ∃ l rest, physicalLines ('+' :: y ++ behind.flatten) =
      ('+' :: l) :: rest := by
    rw [List.cons_append, Text.physicalLines_plain (by decide)]
    cases physicalLines (y ++ behind.flatten) with
    | nil => exact ⟨[], [], rfl⟩
    | cons l rest => exact ⟨l, rest, rfl⟩
  refine ⟨before, ('+' :: y) :: behind, x ++ '+' :: l, rest, rfl, ?_, ?_⟩
  · intro h
    have := congrArg List.length h
    simp at this
  · have hhead : ('-' :: x ++ ('+' :: y ++ behind.flatten)).head? ≠ some '\n' :=
      fun h => (by cases h)
    rw [List.flatten_append, List.flatten_cons, List.flatten_cons,
      Text.physicalLines_flatten hended hhead, Text.physicalLines_open hmark, hrest]
    rfl

end Reading

section Patches

variable {leftName rightName : String} (s t : Text)

/-- An open last line stands nowhere else in its text. -/
theorem Cut.eq_last (hcut : Cut xs) {x : Text} (hx : Open x) (hmem : x ∈ xs) :
    xs.getLast? = some x ∧ xs.count x ≤ 1 := by
  obtain rfl | ⟨init, l, rfl⟩ := List.eq_nil_or_concat xs
  · cases hmem
  rw [List.concat_eq_append] at hcut hmem ⊢
  have hno : x ∉ init := by
    intro hmem
    obtain ⟨k, hk⟩ := List.getElem?_of_mem hmem
    have hlt := (List.getElem?_eq_some_iff.mp hk).1
    refine hx.not_ended (hcut.ended k x (by rw [List.getElem?_append_left hlt, hk]) ?_)
    rw [List.length_append, List.length_singleton]
    omega
  obtain rfl : x = l := by
    obtain h | h := List.mem_append.mp hmem
    · exact absurd h hno
    · exact List.mem_singleton.mp h
  refine ⟨List.getLast?_concat, ?_⟩
  simp [List.count_eq_zero_of_not_mem hno]

/-- An open line with which both texts end is found to be the same. -/
theorem seed_of_last (hy : Cut ys) {x : Text} (hx : Open x) (hleft : xs.getLast? = some x)
    (hright : ys.getLast? = some x) :
    Seed xs ys (xs.length - 1) (ys.length - 1) := by
  rw [List.getLast?_eq_getElem?] at hleft hright
  exact seed_of_same hleft hright
    (isFrequent_of_count_le_one (hy.eq_last hx (List.mem_of_getElem? hright)).2)

theorem applyPatch_names (hleft : Unbroken leftName.toList) (hright : Unbroken rightName.toList)
    {ls : List Text} (hls : ∀ l ∈ ls, Written l) :
    applyPatch ((s!"--- {leftName}\n".toList :: s!"+++ {rightName}\n".toList :: ls).flatten) s =
      (applyLines (physicalLines s) (physicalLines ls.flatten)).map List.flatten := by
  have hold : s!"--- {leftName}\n".toList = "--- ".toList ++ leftName.toList ++ ['\n'] := by
    simp [toString]
  have hnew : s!"+++ {rightName}\n".toList = "+++ ".toList ++ rightName.toList ++ ['\n'] := by
    simp [toString]
  have hended {mark : Text} {name : String} (hmark : Unbroken mark) (hname : Unbroken name.toList) :
      Ended (mark ++ name.toList ++ ['\n']) :=
        ⟨_, _, List.forall_mem_append.mpr ⟨hmark, hname⟩, .single (by decide), rfl⟩
  have hhead : ls.flatten.head? ≠ some '\n' := by
    cases ls with
    | nil => simp
    | cons l ls =>
      obtain ⟨hl, hhead⟩ := hls l List.mem_cons_self
      cases l with
      | nil =>
        obtain ⟨w, e, -, he, hnil⟩ | ⟨hnil, -⟩ := hl
        · obtain ⟨-, rfl⟩ := List.append_eq_nil_iff.mp hnil.symm
          cases he
        · exact absurd rfl hnil
      | cons c l => exact hhead
  rw [List.flatten_cons, List.flatten_cons, hold, hnew, applyPatch,
    Text.physicalLines_ended (hended (by decide) hleft) (by rintro ⟨⟩),
    Text.physicalLines_ended (hended (by decide) hright) hhead]
  rfl

variable {s t}

/-- A listing that keeps the last line, or whose old text is ended, makes the new text of the old
one. -/
theorem applyPatch_unified (hleft : Unbroken leftName.toList) (hright : Unbroken rightName.toList)
    (hkeep : endsOpen s = true → (physicalLines t).getLast? = (physicalLines s).getLast?) :
    applyPatch (unified leftName rightName (physicalLines s) (physicalLines t)).flatten
      s = some t := by
  have hx := cut_physicalLines s
  have hy := cut_physicalLines t
  have hcovers := (hunks_covers (physicalLines s) (physicalLines t)).1
  have hne := hunks_ne_nil (physicalLines s) (physicalLines t)
  have hmakes := applyLines_hunks (physicalLines s) (physicalLines t)
  have hwritten := written_covers hx hy hcovers hne
  obtain hread | ⟨x, -, hopen, hlast, hsome, hbare⟩ := (covers_reads hx hy hcovers hne).1
  case inr => exact absurd (seed_of_last hy hopen hlast
    ((hkeep ((Text.endsOpen_iff s).mpr ⟨x, hlast, hopen⟩)).trans hlast)) hbare
  rw [unified]
  split
  case h_1 hnone =>
    rw [hnone] at hmakes
    have hsame : physicalLines s = physicalLines t := Option.some.inj hmakes
    rw [← Text.flatten_physicalLines t, ← hsame, Text.flatten_physicalLines]
    rfl
  case h_2 =>
    rw [applyPatch_names s hleft hright hwritten, physicalLines_of_readable hread hwritten, hmakes,
      Option.map_some, Text.flatten_physicalLines]

/-- Between two texts that run on behind their last breaks, and do not end alike, a listing cannot
be carried out. -/
theorem applyPatch_unified_eq_none (hleft : Unbroken leftName.toList)
    (hright : Unbroken rightName.toList) (hs : endsOpen s = true) (ht : endsOpen t = true)
    (hne : (physicalLines t).getLast? ≠ (physicalLines s).getLast?) :
    applyPatch (unified leftName rightName (physicalLines s) (physicalLines t)).flatten
      s = none := by
  have hx := cut_physicalLines s
  have hy := cut_physicalLines t
  obtain ⟨x, hxlast, hxopen⟩ := (Text.endsOpen_iff s).mp hs
  obtain ⟨y, hylast, hyopen⟩ := (Text.endsOpen_iff t).mp ht
  have hxy : x ≠ y := by
    rintro rfl
    exact hne (hylast.trans hxlast.symm)
  have hxmem : x ∈ physicalLines s := List.mem_of_getLast? hxlast
  have hymem : y ∈ physicalLines t := List.mem_of_getLast? hylast
  have hxno : x ∉ physicalLines t :=
    fun h => hxy (Option.some.inj ((hy.eq_last hxopen h).1.symm.trans hylast))
  have hyno : y ∉ physicalLines s :=
    fun h => hxy (Option.some.inj (hxlast.symm.trans (hx.eq_last hyopen h).1))
  have hcovers := (hunks_covers (physicalLines s) (physicalLines t)).1
  have hne := hunks_ne_nil (physicalLines s) (physicalLines t)
  have hmakes := applyLines_hunks (physicalLines s) (physicalLines t)
  have hwritten := written_covers hx hy hcovers hne
  -- Two open lines stand in the listing, of which only one can be its last.
  obtain ⟨hremoved, hadded⟩ := hcovers.mem_lines
  have hremoved := hremoved x (by rwa [slice_full, List.drop_zero]) hxno
  have hadded := hadded y (by rwa [slice_full, List.drop_zero]) hyno
  obtain hread | ⟨x', htorn, hopen, -⟩ := (covers_reads hx hy hcovers hne).1
  case inl =>
    have := hread.eq_of_open hremoved hadded (hxopen.cons (by decide)) (hyopen.cons (by decide))
    cases this
  obtain ⟨before, behind, x'', rest, hlines, hx'', hphysical⟩ :=
    physicalLines_of_torn htorn hopen hwritten
  have hfails : applyLines (physicalLines s) (before ++ ('-' :: x'') :: rest) = none := by
    refine applyLines_torn hx'' before behind rest ?_
    rw [← hlines, hmakes]
    rfl
  rw [unified]
  split
  case h_1 hnone =>
    rw [hnone] at hremoved
    cases hremoved
  case h_2 => rw [applyPatch_names s hleft hright hwritten, hphysical, hfails, Option.map_none]

end Patches

end PineTools.Diff
