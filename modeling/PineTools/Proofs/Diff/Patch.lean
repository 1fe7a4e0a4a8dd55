import PineTools.Diff.Unified

/-! Patches. A listing of differences is read line by line: two lines with the names, then hunks,
each with a header that tells where it begins on both sides and how many lines of each it covers. A
hunk keeps, takes away and writes lines, and what it keeps or takes away must stand in the text. -/
namespace PineTools.Diff

def readNumber (t : Text) : Option (Nat × Text) :=
  let digits := t.takeWhile Char.isDigit
  if digits.isEmpty then none else some (Nat.ofDigitChars 10 digits 0, t.dropWhile Char.isDigit)

/-- The number of lines in a range, which is left out for a single line. -/
def readCount : Text → Option (Nat × Text)
  | ',' :: rest => readNumber rest
  | rest => some (1, rest)

/-- The range that a hunk header tells. -/
def readRange (t : Text) : Option ((Nat × Nat) × Text) :=
  (readNumber t).bind fun start => (readCount start.2).map fun count =>
    ((start.1, count.1), count.2)

/-- The number of lines before a range. An empty range is told by the line before it. -/
def linesBefore (range : Nat × Nat) : Nat := if range.2 = 0 then range.1 else range.1 - 1

/-- The text without the given beginning. -/
def afterPrefix (p t : Text) : Option Text := if p.isPrefixOf t then some (t.drop p.length)
    else none

/-- The ranges of a hunk header, on the left and on the right. -/
def readHeader (line : Text) : Option ((Nat × Nat) × (Nat × Nat)) := do
  let rest ← afterPrefix "@@ -".toList line
  let (left, rest) ← readRange rest
  let rest ← afterPrefix " +".toList rest
  let (right, rest) ← readRange rest
  if rest = " @@\n".toList then some (left, right) else none

/-- A text on its way through a patch. -/
structure Carried where
  /-- The number of its lines that were passed. -/
  passed : Nat
  /-- The number of lines that the hunk has still to take from the text. -/
  left : Nat
  /-- The number of lines that the hunk has still to write. -/
  right : Nat
  /-- The lines that were written. -/
  made : List Text

namespace Carried

variable (xs : List Text)

def begin (c : Carried) (line : Text) : Option Carried :=
  (readHeader line).bind fun ranges =>
    let start := linesBefore ranges.1
    if c.passed ≤ start ∧ start ≤ xs.length ∧ linesBefore ranges.2 =
      c.made.length + (start - c.passed) then
      some ⟨start, ranges.1.2, ranges.2.2, c.made ++ Text.slice xs c.passed start⟩
    else none

def change (c : Carried) : Text → Option Carried
  | ' ' :: l =>
    if xs[c.passed]? = some l ∧ c.left ≠ 0 ∧ c.right ≠ 0 then
      some ⟨c.passed + 1, c.left - 1, c.right - 1, c.made ++ [l]⟩
    else none
  | '-' :: l =>
    if xs[c.passed]? = some l ∧ c.left ≠ 0 then some { c with passed := c.passed + 1, left :=
      c.left - 1 } else none
  | '+' :: l => if c.right ≠ 0 then some { c with right := c.right - 1, made := c.made ++ [l] }
      else none
  | _ => none

/-- Carries out a line of a patch. Where no hunk is open it must be a header. -/
def line (c : Carried) (line : Text) : Option Carried :=
  if c.left = 0 ∧ c.right = 0 then c.begin xs line else c.change xs line

/-- The whole text, if no hunk is left open. What stands behind the last hunk stays as it is. -/
def finish (c : Carried) : Option (List Text) :=
  if c.left = 0 ∧ c.right = 0 then some (c.made ++ xs.drop c.passed) else none

end Carried

def applyLines (xs ds : List Text) :
    Option (List Text) := (ds.foldlM (Carried.line xs) ⟨0, 0, 0, []⟩).bind (Carried.finish xs)

/-- The text that a patch makes of a text. A patch without lines changes nothing. -/
def applyPatch (patch t : Text) : Option Text :=
  match Text.physicalLines patch with
  | [] => some t
  | old :: new :: ds =>
    if "--- ".toList.isPrefixOf old && "+++ ".toList.isPrefixOf new then
      (applyLines (Text.physicalLines t) ds).map List.flatten
    else none
  | _ => none

section Headers

theorem readNumber_toDigits (n : Nat) {rest : Text} (h : ∀ c, rest.head? = some c →
    c.isDigit = false) :
    readNumber (Nat.toDigits 10 n ++ rest) = some (n, rest) := by
  have hdigits : ∀ c ∈ Nat.toDigits 10 n, c.isDigit = true := fun c hc =>
    Nat.isDigit_of_mem_toDigits (by decide) (by decide) hc
  have htake : rest.takeWhile Char.isDigit = [] := by
    cases rest with
    | nil => rfl
    | cons c rest => rw [List.takeWhile_cons_of_neg (by rw [h c rfl]; exact Bool.false_ne_true)]
  have hdrop : rest.dropWhile Char.isDigit = rest := by
    cases rest with
    | nil => rfl
    | cons c rest => rw [List.dropWhile_cons_of_neg (by rw [h c rfl]; exact Bool.false_ne_true)]
  rw [readNumber]
  simp only [List.takeWhile_append_of_pos hdigits, List.dropWhile_append_of_pos hdigits, htake,
    hdrop, List.append_nil, @Nat.ofDigitChars_toDigits 10 n (by decide) (by decide)]
  rw [if_neg]
  simp [Nat.toDigits_ne_nil]

theorem rangeText_toList (start stop : Nat) : (rangeText start stop).toList =
    if stop - start = 1 then Nat.toDigits 10 (start + 1)
    else if stop - start = 0 then Nat.toDigits 10 start ++ ",0".toList
    else Nat.toDigits 10 (start + 1) ++ ',' :: Nat.toDigits 10 (stop - start) := by
  have hstring (s : String) : toString s = s := rfl
  rw [rangeText]
  split
  · simp
  · split <;> simp [hstring]

theorem readCount_of_ne {rest : Text} (h : ∀ c, rest.head? = some c → c ≠ ',') :
    readCount rest = some (1, rest) := by
  cases rest with
  | nil => rfl
  | cons c rest =>
    have hc := h c rfl
    rw [readCount.eq_def]
    split
    case h_1 e => exact absurd (List.cons.inj e).1 hc
    case h_2 => rfl

theorem readRange_rangeText {start stop : Nat} {rest : Text}
    (hrest : ∀ c, rest.head? = some c → c.isDigit = false ∧ c ≠ ',') :
    ∃ range, readRange ((rangeText start stop).toList ++ rest) = some (range, rest) ∧
    linesBefore range = start ∧
      range.2 = stop - start := by
  have hend : ∀ c, rest.head? = some c → c.isDigit = false := fun c hc => (hrest c hc).1
  have hcount (n : Nat) : readCount (',' :: Nat.toDigits 10 n ++ rest) = some (n, rest) :=
    readNumber_toDigits n hend
  have hcomma (n : Nat) : ∀ c, (',' :: Nat.toDigits 10 n ++ rest).head? = some c →
      c.isDigit = false := by
    rintro c ⟨⟩
    rfl
  rw [rangeText_toList]
  split
  case isTrue hone =>
    refine ⟨(start + 1, 1), ?_, rfl, hone.symm⟩
    rw [readRange, readNumber_toDigits _ hend, Option.bind_some, readCount_of_ne fun c hc =>
      (hrest c hc).2]
    rfl
  split
  case isTrue hzero =>
    refine ⟨(start, 0), ?_, rfl, hzero.symm⟩
    have hzero := hcount 0
    rw [List.append_assoc, readRange]
    change ((readNumber (Nat.toDigits 10 start ++ (',' :: Nat.toDigits 10 0 ++ rest))).bind _) = _
    rw [readNumber_toDigits start (hcomma _), Option.bind_some, hzero]
    rfl
  case isFalse hmany =>
    refine ⟨(start + 1, stop - start), ?_, ?_, rfl⟩
    · rw [List.append_assoc, readRange, readNumber_toDigits _ (hcomma _), Option.bind_some, hcount]
      rfl
    · rw [linesBefore, if_neg hmany]
      rfl

theorem afterPrefix_append (p t : Text) : afterPrefix p (p ++ t) = some t := by
  rw [afterPrefix, if_pos (List.isPrefixOf_iff_prefix.mpr (List.prefix_append p t)), List.drop_left]

theorem header_toList (i e j f : Nat) : s!"@@ -{rangeText i e} +{rangeText j f} @@\n".toList =
    "@@ -".toList ++
      ((rangeText i e).toList ++ (" +".toList ++ ((rangeText j f).toList ++ " @@\n".toList))) := by
  simp [toString]

/-- The header of a hunk tells where it begins and how many lines it covers. -/
theorem readHeader_written (i e j f : Nat) : ∃ left right,
    readHeader (s!"@@ -{rangeText i e} +{rangeText j f} @@\n".toList) = some (left, right) ∧
      linesBefore left = i ∧ left.2 = e - i ∧ linesBefore right = j ∧ right.2 = f - j := by
  obtain ⟨right, hright, hbefore', hcount'⟩ :=
    @readRange_rangeText j f " @@\n".toList (by rintro c ⟨⟩; decide)
  obtain ⟨left, hleft, hbefore, hcount⟩ := @readRange_rangeText i e
    (" +".toList ++ ((rangeText j f).toList ++ " @@\n".toList)) (by rintro c ⟨⟩; decide)
  refine ⟨left, right, ?_, hbefore, hcount, hbefore', hcount'⟩
  rw [header_toList, readHeader, afterPrefix_append]
  simp only [Option.bind_eq_bind, Option.bind_some, hleft, afterPrefix_append, hright, if_true]

end Headers

namespace Carried

variable {xs ys : List Text} {i j : Nat} (left right : Nat)

theorem line_keep {l : Text} (hx : xs[i]? = some l) (hy : ys[j]? = some l) :
    line xs ⟨i, left + 1, right + 1, ys.take j⟩ (' ' :: l) =
      some ⟨i + 1, left, right, ys.take (j + 1)⟩ := by
  rw [line, if_neg (fun h => Nat.succ_ne_zero left h.1), List.take_add_one, hy]
  exact if_pos ⟨hx, Nat.succ_ne_zero left, Nat.succ_ne_zero right⟩

theorem line_remove {l : Text} (hx : xs[i]? = some l) (made : List Text) :
    line xs ⟨i, left + 1, right, made⟩ ('-' :: l) = some ⟨i + 1, left, right, made⟩ := by
  rw [line, if_neg (fun h => Nat.succ_ne_zero left h.1)]
  exact if_pos ⟨hx, Nat.succ_ne_zero left⟩

theorem line_write {l : Text} (hy : ys[j]? = some l) :
    line xs ⟨i, left, right + 1, ys.take j⟩ ('+' :: l) =
      some ⟨i, left, right, ys.take (j + 1)⟩ := by
  rw [line, if_neg (fun h => Nat.succ_ne_zero right h.2), List.take_add_one, hy]
  exact @if_pos _ _ (Nat.succ_ne_zero right) _ _ none

/-- Where no hunk is open the next one begins. -/
theorem line_header {i' j' : Nat} {line' : Text} {leftRange rightRange : Nat × Nat}
    (h : readHeader line' = some (leftRange, rightRange)) (hleft : linesBefore leftRange = i')
    (hright : linesBefore rightRange = j') (hi : i ≤ i') (hi' : i' ≤ xs.length) (made : List Text)
    (hj : j' = made.length + (i' - i)) :
    line xs ⟨i, 0, 0, made⟩ line' =
      some ⟨i', leftRange.2, rightRange.2, made ++ Text.slice xs i i'⟩ := by
  subst hleft hright
  rw [line, if_pos ⟨rfl, rfl⟩, begin, h]
  exact if_pos ⟨hi, hi', hj⟩

/-- A line that is taken away does not stand in the text as another one. -/
theorem line_remove_eq_none {c : Carried} {l l' : Text} (hne : l' ≠ l)
    (h : (c.line xs ('-' :: l)).isSome = true) :
    c.line xs ('-' :: l') = none := by
  rw [line] at h ⊢
  split
  case isTrue hclosed => rw [if_pos hclosed] at h; cases h
  case isFalse hopen =>
    rw [if_neg hopen] at h
    have hl : xs[c.passed]? = some l := by
      rw [change.eq_2] at h
      split at h
      case isTrue hhas => exact hhas.1
      case isFalse => cases h
    refine if_neg fun k => hne ?_
    exact Option.some.inj (k.1.symm.trans hl)

end Carried

/-- A patch that can be carried out cannot be once a line that it takes away is another one,
whatever follows. -/
theorem applyLines_torn {xs : List Text} {l l' : Text} (hne : l' ≠ l) (a ds ds' : List Text)
    (h : (applyLines xs (a ++ ('-' :: l) :: ds)).isSome = true) :
    applyLines xs (a ++ ('-' :: l') :: ds') = none := by
  rw [applyLines, List.foldlM_append] at h ⊢
  cases hc : a.foldlM (Carried.line xs) ⟨0, 0, 0, []⟩ with
  | none => rfl
  | some c =>
    rw [hc] at h
    have hline : (c.line xs ('-' :: l)).isSome = true := by
      cases hline : c.line xs ('-' :: l) with
      | none => simp [hline] at h
      | some => rfl
    simp [Carried.line_remove_eq_none hne hline]

end PineTools.Diff
