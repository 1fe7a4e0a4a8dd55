import PineTools.Proofs.Construct.Arguments
import PineTools.Proofs.Construct.Calls
import PineTools.Proofs.Construct.Statements
import PineTools.Proofs.Layout.ChangeLog
import PineTools.Proofs.Pattern.LineWise
import PineTools.Proofs.Repair.Commas
import PineTools.Proofs.Repair.Renames
import PineTools.Proofs.Text.PhysicalLines

/-! Commas between bare tokens. Whether an argument list has lost its commas, which tokens it holds
and where the gaps between them are is found out in three ways on the mask, and the commas are put
into the text itself. For a list that is written with blanks between its tokens the three agree, and
the tokens come out with commas between them. -/
namespace PineTools

open Reader

/-- A token that needs no operator: a dotted name that does not end in a dot, an unsigned number, or
a literal without newlines, backslashes and quotes of its own kind. -/
inductive BareToken : Text → Prop
  | name {c : Char} {more : Text} (start : Text.isNameStart c = true)
  (letters : ∀ d ∈ more, Text.isWordOrDot d = true)
      (last : (c :: more).getLast? ≠ some '.') : BareToken (c :: more)
  | whole {digits : Text} (nonempty : digits ≠ []) (decimal : ∀ d ∈ digits, Text.isDecimal d =
    true) : BareToken digits
  | fraction {whole digits : Text} (nonempty : whole ≠ [] ∧ digits ≠ [])
      (decimal : ∀ d ∈ whole ++ digits, Text.isDecimal d = true) :
      BareToken (whole ++ '.' :: digits)
  | literal (q : Quote) {inner : Text} (plain : ∀ d ∈ inner, d ≠ q.char ∧ d ≠ '\n' ∧ d ≠ '\\') :
      BareToken (q.char :: (inner ++ [q.char]))

inductive Spaced : Text → List Text → Prop
  | last {token trail : Text} (bare : BareToken token)
  (blank : ∀ c ∈ trail, Text.isBlank c = true) :
      Spaced (token ++ trail) [token]
  | more {token gap rest : Text} {tokens : List Text} (bare : BareToken token) (nonempty : gap ≠ [])
      (blank : ∀ c ∈ gap, Text.isBlank c = true) (behind : Spaced rest tokens) :
      Spaced (token ++ (gap ++ rest)) (token :: tokens)

/-- Characters that a bare token shows on the mask. -/
def isTokenChar (c : Char) : Bool := Text.isWordOrDot c || (Quote.ofChar? c).isSome

section Characters

variable {c : Char}

/-- A decimal digit is one of the basic ones, or a word character behind the basic alphabet. -/
theorem isDecimal_cases (h : Text.isDecimal c = true) :
    Text.isAsciiDigit c = true ∨ 0x80 ≤ c.toNat ∧ Text.inRanges Text.wordRanges c.toNat = true := by
  have within : ∀ r ∈ Text.decimalRanges, r = (0x30, 0x39) ∨
      0x80 ≤ r.1 ∧
      Text.wordRanges.any (fun w => decide (w.1 ≤ r.1) && decide (r.2 ≤ w.2)) = true := by
      decide +kernel
  rw [Text.isDecimal, Text.decimalValue?, Option.isSome_map, List.find?_isSome] at h
  obtain ⟨r, hr, hin⟩ := h
  rw [Bool.and_eq_true, decide_eq_true_iff, decide_eq_true_iff] at hin
  obtain rfl | ⟨hhigh, hword⟩ := within r hr
  · left
    simpa [Text.isAsciiDigit, Char.le_def, UInt32.le_iff_toNat_le] using hin
  · right
    obtain ⟨w, hw, hwin⟩ := List.any_eq_true.mp hword
    rw [Bool.and_eq_true, decide_eq_true_iff, decide_eq_true_iff] at hwin
    refine ⟨by omega, List.any_eq_true.mpr ⟨w, hw, ?_⟩⟩
    rw [Bool.and_eq_true, decide_eq_true_iff, decide_eq_true_iff]
    omega

theorem toNat_of_isAsciiDigit (h : Text.isAsciiDigit c = true) :
    0x30 ≤ c.toNat ∧ c.toNat ≤ 0x39 := by
  simpa [Text.isAsciiDigit, Char.le_def, UInt32.le_iff_toNat_le] using h

theorem isWord_of_isDecimal (h : Text.isDecimal c = true) : Text.isWord c = true := by
  rw [Text.isWord]
  obtain hdigit | ⟨hhigh, hword⟩ := isDecimal_cases h
  · have hlow : c.toNat < 0x80 := by
      have := toNat_of_isAsciiDigit hdigit
      omega
    rw [if_pos hlow, hdigit, Bool.or_true, Bool.true_or]
  · rw [if_neg (Nat.not_lt.mpr hhigh), hword]

theorem isNameStart_of_isDecimal (h : Text.isDecimal c = true) : Text.isNameStart c = false := by
  refine Bool.eq_false_iff.mpr fun hstart => ?_
  have hrange : 65 ≤ c.toNat ∧ c.toNat < 0x80 := by
    simp only [Text.isNameStart, Text.isLatin, Bool.or_eq_true, Bool.and_eq_true,
      decide_eq_true_iff, beq_iff_eq, Char.le_def, UInt32.le_iff_toNat_le] at hstart
    rcases hstart with (⟨hlow, hhigh⟩ | ⟨hlow, hhigh⟩) | rfl
    · exact ⟨Nat.le_trans (by decide) hlow, Nat.lt_of_le_of_lt hhigh (by decide)⟩
    · exact ⟨hlow, Nat.lt_of_le_of_lt hhigh (by decide)⟩
    · decide
  obtain hdigit | ⟨hhigh, -⟩ := isDecimal_cases h
  · have := toNat_of_isAsciiDigit hdigit
    omega
  · omega

theorem isTokenChar_of_isWordOrDot (h : Text.isWordOrDot c = true) : isTokenChar c = true := by
  rw [isTokenChar, h, Bool.true_or]

theorem isTokenChar_quote (q : Quote) : isTokenChar q.char = true := by cases q <;> decide

theorem not_of_isTokenChar {p : Char → Bool} (hword : ∀ d, p d = true → Text.isWordOrDot d = false)
    (hquote : ∀ q : Quote, p q.char = false) (h : isTokenChar c = true) : p c = false := by
  refine Bool.eq_false_iff.mpr fun hp => ?_
  rw [isTokenChar, hword c hp, Bool.false_or] at h
  obtain ⟨q, hq⟩ := Option.isSome_iff_exists.mp h
  rw [Quote.ofChar?_eq_some hq, hquote q] at hp
  cases hp

theorem isBlank_of_isTokenChar (h : isTokenChar c = true) : Text.isBlank c = false := by
  refine not_of_isTokenChar (fun d hd => ?_) (fun q => by cases q <;> decide) h
  rw [Text.isBlank, Bool.or_eq_true, beq_iff_eq, beq_iff_eq] at hd
  rcases hd with rfl | rfl <;> decide

theorem plain_of_isTokenChar (h : isTokenChar c = true) :
    isOpener c = false ∧ isCloser c = false ∧ c ≠ ',' := by
  refine ⟨not_of_isTokenChar (fun d hd => ?_) (fun q => by cases q <;> decide) h,
    not_of_isTokenChar (fun d hd => ?_) (fun q => by cases q <;> decide) h, ?_⟩
  · obtain ⟨k, hk⟩ := Option.isSome_iff_exists.mp hd
    rw [Bracket.ofOpener?_eq_some.mp hk]
    cases k <;> decide
  · obtain ⟨k, hk⟩ := Option.isSome_iff_exists.mp hd
    rw [Bracket.ofCloser?_eq_some.mp hk]
    cases k <;> decide
  · rintro rfl
    exact absurd h (by decide)

end Characters

/-- A literal is read up to its closing quote, and what follows it as at the start of a script. -/
theorem cellsFrom_literal {q : Quote} {inner : Text} (h : ∀ d ∈ inner, d ≠ q.char ∧ d ≠ '\n' ∧
    d ≠ '\\') (rest : Text) :
    cellsFrom (.literal q) (inner ++ q.char :: rest) =
      inner.map (⟨·, .literal q, false⟩) ++ ⟨q.char, .literal q, true⟩ ::
        cellsFrom .start rest := by
  induction inner with
  | nil =>
    have hstep : (Mode.literal q).step q.char rest.head? =
        (⟨q.char, .literal q, true⟩, .start) := by cases q <;> rfl
    rw [List.nil_append, cellsFrom, hstep]
    rfl
  | cons d inner ih =>
    obtain ⟨⟨hquote, hnewline, hescape⟩, hinner⟩ := List.forall_mem_cons.mp h
    have hstep (ahead : Option Char) : (Mode.literal q).step d ahead =
        (⟨d, .literal q, false⟩, .literal q) := by
      simp [Mode.step, Mode.stepLiteral, hquote, hnewline, hescape]
    rw [List.cons_append, cellsFrom, hstep, ih hinner, List.map_cons, List.cons_append]

theorem mask_literal_append {q : Quote} {inner : Text} (h : ∀ d ∈ inner, d ≠ q.char ∧ d ≠ '\n' ∧
    d ≠ '\\') (rest : Text) :
    mask (q.char :: (inner ++ q.char :: rest)) =
      q.char :: (inner.map (fun _ => Cell.filler) ++ q.char :: mask rest) := by
  have hstep (ahead : Option Char) : Mode.start.step q.char ahead =
      (⟨q.char, .literal q, true⟩, .literal q) := by
    cases q <;> rfl
  have hquote : (⟨q.char, .literal q, true⟩ : Cell).masked = q.char := by cases q <;> rfl
  have hinner : (inner.map fun d => (⟨d, .literal q, false⟩ : Cell)).map Cell.masked =
      inner.map fun _ => Cell.filler := by
    rw [List.map_map]
    refine List.map_congr_left fun d hd => ?_
    rw [Function.comp_apply, Cell.masked, if_neg (h d hd).2.1]
    rfl
  rw [mask, cells, cellsFrom, hstep, cellsFrom_literal h, List.map_cons, List.map_append,
    List.map_cons, hinner, hquote]
  rfl

theorem mask_blank_append {gap : Text} (hgap : ∀ c ∈ gap, Text.isBlank c = true) (rest : Text) :
    mask (gap ++ rest) = gap ++ mask rest :=
  mask_tame_append (tame_of_blanks hgap) rest

namespace BareToken

variable {token : Text}

theorem cases_literal (h : BareToken token) : (∀ c ∈ token, Text.isWordOrDot c = true) ∨
    ∃ q inner, token = Quote.char q :: (inner ++ [q.char]) ∧ ∀ d ∈ inner, d ≠ q.char ∧
    d ≠ '\n' ∧ d ≠ '\\' := by
  have hdecimal {d : Char} (hd : Text.isDecimal d = true) : Text.isWordOrDot d = true :=
    isWordOrDot_of_isWord (isWord_of_isDecimal hd)
  cases h with
  | name start letters last =>
    exact .inl (List.forall_mem_cons.mpr
      ⟨isWordOrDot_of_isWord (Text.isWord_of_isNameStart start), letters⟩)
  | whole nonempty decimal => exact .inl fun c hc => hdecimal (decimal c hc)
  | fraction nonempty decimal =>
    left
    intro c hc
    rcases List.mem_append.mp hc with hc | hc
    · exact hdecimal (decimal c (List.mem_append_left _ hc))
    · rcases List.mem_cons.mp hc with rfl | hc
      · decide
      · exact hdecimal (decimal c (List.mem_append_right _ hc))
  | literal q plain => exact .inr ⟨q, _, rfl, plain⟩

theorem mask_append (h : BareToken token) (rest : Text) :
    mask (token ++ rest) = mask token ++ mask rest := by
  obtain hletters | ⟨q, inner, rfl, hplain⟩ := h.cases_literal
  · have htame : ∀ c ∈ token, Tame c := fun c hc => (Repair.tame_of_isWordOrDot (hletters c hc)).1
    rw [mask_tame_append htame, mask_tame htame]
  · have hself := mask_literal_append hplain []
    have hrest := mask_literal_append hplain rest
    rw [hself, List.cons_append, List.append_assoc, List.singleton_append, hrest]
    simp [mask, cells, cellsFrom]

/-- The mask of a token is a token, in which no character could be taken for anything else. -/
theorem bare_mask (h : BareToken token) :
    BareToken (mask token) ∧ ∀ c ∈ mask token, isTokenChar c = true := by
  obtain hletters | ⟨q, inner, rfl, hplain⟩ := h.cases_literal
  · rw [mask_tame fun c hc => (Repair.tame_of_isWordOrDot (hletters c hc)).1]
    exact ⟨h, fun c hc => isTokenChar_of_isWordOrDot (hletters c hc)⟩
  · have hfilled : ∀ d ∈ inner.map fun _ => Cell.filler, d = Cell.filler := by simp
    have hmask : mask (q.char :: (inner ++ [q.char])) =
        q.char :: (inner.map (fun _ => Cell.filler) ++ [q.char]) :=
      mask_literal_append hplain []
    rw [hmask]
    constructor
    · refine .literal q fun d hd => ?_
      rw [hfilled d hd]
      cases q <;> decide
    · intro c hc
      simp only [List.mem_cons, List.mem_append, List.not_mem_nil, or_false] at hc
      obtain rfl | hc | rfl := hc
      · exact isTokenChar_quote q
      · rw [hfilled c hc]
        decide
      · exact isTokenChar_quote q

/-- A token that is no reserved word does not look like one. -/
theorem free_mask (h : BareToken token) (hfree : isKeyword token = false ∧
    isTypeKeyword token = false) :
    isKeyword (mask token) = false ∧ isTypeKeyword (mask token) = false := by
  have hquoted : ∀ w ∈ keywords ++ typeKeywords, ∀ q ∈ [Quote.single, Quote.double],
      w.toList.head? ≠ some q.char := by decide
  obtain hletters | ⟨q, inner, rfl, hplain⟩ := h.cases_literal
  · rwa [mask_tame fun c hc => (Repair.tame_of_isWordOrDot (hletters c hc)).1]
  · have hq : q ∈ [Quote.single, Quote.double] := by cases q <;> decide
    have hmask : mask (q.char :: (inner ++ [q.char])) =
        q.char :: (inner.map (fun _ => Cell.filler) ++ [q.char]) :=
      mask_literal_append hplain []
    have hnone {words : List String} (hwords : ∀ w ∈ words, w.toList.head? ≠ some q.char) :
        (words.any fun w => w.toList == mask (q.char :: (inner ++ [q.char]))) = false := by
      refine List.any_eq_false.mpr fun w hw e => hwords w hw ?_
      rw [beq_iff_eq.mp e, hmask]
      rfl
    exact ⟨hnone fun w hw => hquoted w (List.mem_append_left _ hw) q hq,
      hnone fun w hw => hquoted w (List.mem_append_right _ hw) q hq⟩

theorem ends (h : BareToken token) :
    (∃ c more, token = c :: more ∧ isTokenEdge c = true) ∧ ∃ init c, token = init ++ [c] ∧
    isTokenEdge c = true := by
  have hword {c : Char} (hc : Text.isWord c = true) : isTokenEdge c = true := by
    rw [isTokenEdge, hc, Bool.true_or]
  have hquote (q : Quote) : isTokenEdge q.char = true := by cases q <;> decide
  have hlast {digits : Text} (hne : digits ≠ []) (hall : ∀ d ∈ digits, Text.isDecimal d = true) :
      ∃ init c, digits = init ++ [c] ∧ isTokenEdge c = true :=
    ⟨digits.dropLast, digits.getLast hne, (List.dropLast_append_getLast hne).symm,
      hword (isWord_of_isDecimal (hall _ (List.getLast_mem hne)))⟩
  have hfirst {digits : Text} (hne : digits ≠ []) (hall : ∀ d ∈ digits, Text.isDecimal d = true) :
      ∃ c more, digits = c :: more ∧ isTokenEdge c = true :=
    ⟨digits.head hne, digits.tail, (List.cons_head_tail hne).symm,
      hword (isWord_of_isDecimal (hall _ (List.head_mem hne)))⟩
  cases h with
  | @name c more start letters last =>
    refine ⟨⟨c, more, rfl, hword (Text.isWord_of_isNameStart start)⟩, ?_⟩
    have hne : c :: more ≠ [] := List.cons_ne_nil c more
    refine ⟨_, _, (List.dropLast_append_getLast hne).symm, hword ?_⟩
    have hletter : Text.isWordOrDot ((c :: more).getLast hne) = true := by
      rcases List.mem_cons.mp (List.getLast_mem hne) with e | hmem
      · rw [e]
        exact isWordOrDot_of_isWord (Text.isWord_of_isNameStart start)
      · exact letters _ hmem
    rw [Text.isWordOrDot, Bool.or_eq_true, beq_iff_eq] at hletter
    refine hletter.resolve_right fun e => last ?_
    rw [List.getLast?_eq_some_getLast hne, e]
  | whole nonempty decimal => exact ⟨hfirst nonempty decimal, hlast nonempty decimal⟩
  | @fraction whole digits nonempty decimal =>
    obtain ⟨c, more, rfl, hc⟩ := hfirst nonempty.1 fun d hd => decimal d (List.mem_append_left _ hd)
    obtain ⟨init, d, rfl, hd⟩ := hlast nonempty.2 fun d hd => decimal d (List.mem_append_right _ hd)
    exact ⟨⟨c, _, rfl, hc⟩, (c :: more) ++ '.' :: init, d, by simp, hd⟩
  | @literal q inner plain =>
    exact ⟨⟨q.char, _, rfl, hquote q⟩, q.char :: inner, q.char, rfl, hquote q⟩

end BareToken

section Reading

variable {rest : Text}

theorem dottedName_eq_none {d : Char} (hd : Text.isNameStart d = false) :
    (dottedName : Reader Char Text) (d :: rest) = none := by
  refine Option.eq_none_iff_forall_ne_some.mpr fun r hr => ?_
  obtain ⟨g, rest', hg, -⟩ := bind_eq_some.mp hr
  obtain ⟨e, hstart⟩ := one_eq_some.mp hg
  cases e
  exact absurd hstart (by simpa [Glyph.seen] using hd)

theorem unsignedNumber_eq_none {d : Char} (hd : Text.isDecimal d = false) :
    (unsignedNumber : Reader Char Text) (d :: rest) = none := by
  refine Option.eq_none_iff_forall_ne_some.mpr fun r hr => ?_
  obtain ⟨whole, rest', hw, -⟩ := bind_eq_some.mp hr
  obtain ⟨hne, hrun⟩ := run1_eq_some.mp hw
  obtain ⟨rfl, -⟩ := run_eq_some.mp hrun
  exact hne (List.takeWhile_cons_of_neg (by simpa [Glyph.seen] using hd))

theorem anyLiteral_quoted {q : Quote} {inner : Text} (h : ∀ d ∈ inner, d ≠ q.char ∧ d ≠ '\n') :
    (anyLiteral : Reader Char Text) (q.char :: (inner ++ q.char :: rest)) =
      some (q.char :: (inner ++ [q.char]), rest) := by
  have hinner : ∀ d ∈ inner, (Glyph.seen d != q.char && Glyph.seen d != '\n') = true := by
    intro d hd
    simpa [Glyph.seen] using h d hd
  have hread : (quotedLiteral q : Reader Char Text) (q.char :: (inner ++ q.char :: rest)) =
      some (q.char :: (inner ++ [q.char]), rest) := by
    refine bind_eq_some.mpr ⟨q.char, _, one_eq_some.mpr ⟨rfl, beq_self_eq_true _⟩, ?_⟩
    refine bind_eq_some.mpr ⟨inner, q.char :: rest, run_append hinner fun g hg => ?_, ?_⟩
    · cases hg
      simp [Glyph.seen]
    · exact bind_eq_some.mpr ⟨q.char, rest, one_eq_some.mpr ⟨rfl, beq_self_eq_true _⟩, rfl⟩
  cases q with
  | double => exact orElse_eq_some.mpr (.inl hread)
  | single =>
    -- The first reader asks for the other quote.
    refine orElse_eq_some.mpr (.inr ⟨?_, hread⟩)
    refine Option.eq_none_iff_forall_ne_some.mpr fun r hr => ?_
    obtain ⟨g, rest', hg, -⟩ := bind_eq_some.mp hr
    obtain ⟨e, hquote⟩ := one_eq_some.mp hg
    cases e
    exact absurd hquote (by decide)

theorem stops_at_blank {p : Char → Bool} (hp : p ' ' = false ∧ p '\t' = false)
    (hrest : ∀ c, rest.head? = some c → Text.isBlank c = true) :
    ∀ c, rest.head? = some c → p c = false := by
  intro c hc
  have hblank := hrest c hc
  rw [Text.isBlank, Bool.or_eq_true, beq_iff_eq, beq_iff_eq] at hblank
  rcases hblank with rfl | rfl
  · exact hp.1
  · exact hp.2

theorem run1_digits {digits : Text} (hne : digits ≠ [])
    (hall : ∀ d ∈ digits, Text.isDecimal d = true) (hrest : ∀ c, rest.head? = some c →
      Text.isDecimal c = false) :
    (run1 Text.isDecimal : Reader Char Text) (digits ++ rest) = some (digits, rest) :=
  run1_eq_some.mpr ⟨hne, run_append hall hrest⟩

theorem unsignedNumber_whole {digits : Text} (hne : digits ≠ [])
    (hall : ∀ d ∈ digits, Text.isDecimal d = true) (hrest : ∀ c, rest.head? = some c →
      Text.isBlank c = true) :
    (unsignedNumber : Reader Char Text) (digits ++ rest) = some (digits, rest) := by
  refine bind_eq_some.mpr ⟨digits, rest, run1_digits hne hall (stops_at_blank (by decide) hrest),
    ?_⟩
  refine bind_eq_some.mpr ⟨none, rest, optional_eq_some.mpr (.inr ⟨?_, rfl⟩), ?_⟩
  · refine Option.eq_none_iff_forall_ne_some.mpr fun r hr => ?_
    obtain ⟨point, rest', hpoint, -⟩ := bind_eq_some.mp hr
    obtain ⟨rfl, hdot⟩ := one_eq_some.mp hpoint
    have hno := stops_at_blank (p := (· == '.')) (by decide) hrest point rfl
    rw [show Glyph.seen point = point from rfl, hno] at hdot
    cases hdot
  · simp [pure_eq_some]

theorem unsignedNumber_fraction {whole digits : Text} (hne : whole ≠ [] ∧ digits ≠ [])
    (hall : ∀ d ∈ whole ++ digits, Text.isDecimal d = true) (hrest : ∀ c, rest.head? = some c →
      Text.isBlank c = true) :
    (unsignedNumber : Reader Char Text) (whole ++ '.' :: (digits ++ rest)) =
      some (whole ++ '.' :: digits, rest) := by
  obtain ⟨hwhole, hdigits⟩ := List.forall_mem_append.mp hall
  have hpoint : ∀ c, ('.' :: (digits ++ rest)).head? = some c → Text.isDecimal c = false := by
    intro c hc
    cases hc
    decide
  refine bind_eq_some.mpr ⟨whole, _, run1_digits hne.1 hwhole hpoint, ?_⟩
  refine bind_eq_some.mpr
    ⟨some ('.' :: digits), rest, optional_eq_some.mpr (.inl ⟨'.' :: digits, rest, ?_, rfl⟩), ?_⟩
  · refine bind_eq_some.mpr ⟨'.', digits ++ rest, one_eq_some.mpr ⟨rfl, rfl⟩, ?_⟩
    exact bind_eq_some.mpr
      ⟨digits, rest, run1_digits hne.2 hdigits (stops_at_blank (by decide) hrest), rfl⟩
  · rfl

theorem BareToken.reads {token : Text} (h : BareToken token) (hrest : ∀ c, rest.head? = some c →
    Text.isBlank c = true) :
    (bareToken : Reader Char Text) (token ++ rest) = some (token, rest) := by
  have hunnamed {digits : Text} (hne : digits ≠ []) (hall : ∀ d ∈ digits, Text.isDecimal d = true)
    (t : Text) :
      (dottedName : Reader Char Text) (digits ++ t) = none := by
    obtain ⟨d, more, rfl⟩ := List.exists_cons_of_ne_nil hne
    exact dottedName_eq_none (isNameStart_of_isDecimal (hall d List.mem_cons_self))
  cases h with
  | @name c more start letters last =>
    have hname : (dottedName : Reader Char Text) (c :: more ++ rest) = some (c :: more, rest) :=
      bind_eq_some.mpr ⟨c, more ++ rest, one_eq_some.mpr ⟨rfl, start⟩,
        bind_eq_some.mpr ⟨more, rest, run_append letters (stops_at_blank (by decide) hrest), rfl⟩⟩
    exact orElse_eq_some.mpr (.inl hname)
  | whole nonempty decimal =>
    refine orElse_eq_some.mpr (.inr ⟨hunnamed nonempty decimal rest, ?_⟩)
    exact orElse_eq_some.mpr (.inl (unsignedNumber_whole nonempty decimal hrest))
  | @fraction whole digits nonempty decimal =>
    rw [List.append_assoc, List.cons_append]
    refine orElse_eq_some.mpr
      (.inr ⟨hunnamed nonempty.1 (List.forall_mem_append.mp decimal).1 _, ?_⟩)
    exact orElse_eq_some.mpr (.inl (unsignedNumber_fraction nonempty decimal hrest))
  | @literal q inner plain =>
    have hletter : Text.isNameStart q.char = false ∧ Text.isDecimal q.char = false := by
      cases q <;> decide
    rw [List.cons_append, List.append_assoc, List.singleton_append]
    refine orElse_eq_some.mpr (.inr ⟨dottedName_eq_none hletter.1, ?_⟩)
    refine orElse_eq_some.mpr (.inr ⟨unsignedNumber_eq_none hletter.2, ?_⟩)
    exact orElse_eq_some.mpr
      (.inl (anyLiteral_quoted fun d hd => ⟨(plain d hd).1, (plain d hd).2.1⟩))

end Reading

def nextToken : Reader Char Text := do
  discard blanks1
  bareToken

theorem bareToken_nil : (bareToken : Reader Char Text) [] = none := rfl

theorem nextToken_eq_none {trail : Text} (h : ∀ c ∈ trail, Text.isBlank c = true) :
    nextToken trail = none := by
  refine Option.eq_none_iff_forall_ne_some.mpr fun r hr => ?_
  obtain ⟨gap, rest, hgap, hr⟩ := discard_bind_eq_some.mp hr
  obtain ⟨rfl, rfl⟩ := run_eq_some.mp (run1_eq_some.mp hgap).2
  have hnothing : trail.dropWhile (fun c => Text.isBlank (Glyph.seen c)) = [] :=
    List.dropWhile_eq_nil_iff.mpr h
  rw [hnothing, bareToken_nil] at hr
  cases hr

theorem upTo_nextToken_trail {trail : Text} (h : ∀ c ∈ trail, Text.isBlank c = true) (fuel : Nat) :
    upTo nextToken fuel trail = some ([], trail) := by
  cases fuel with
  | zero => rfl
  | succ fuel =>
    refine orElse_eq_some.mpr (.inr ⟨?_, rfl⟩)
    refine Option.eq_none_iff_forall_ne_some.mpr fun r hr => ?_
    obtain ⟨b, rest, hb, -⟩ := bind_eq_some.mp hr
    rw [nextToken_eq_none h] at hb
    cases hb

namespace Spaced

variable {body : Text} {tokens : List Text}

theorem bare (h : Spaced body tokens) : ∀ t ∈ tokens, BareToken t := by
  induction h with
  | last bare blank => exact List.forall_mem_singleton.mpr bare
  | more bare nonempty blank behind ih => exact List.forall_mem_cons.mpr ⟨bare, ih⟩

theorem ne_nil (h : Spaced body tokens) : tokens ≠ [] := by
  cases h with
  | last bare blank | more bare nonempty blank behind => exact List.cons_ne_nil _ _

theorem head (h : Spaced body tokens) : ∃ c more, body = c :: more ∧ isTokenEdge c = true := by
  cases h with
  | last bare blank | more bare nonempty blank behind =>
    obtain ⟨c, more, rfl, hc⟩ := bare.ends.1
    exact ⟨c, _, List.cons_append, hc⟩

theorem mask (h : Spaced body tokens) : Spaced (mask body) (tokens.map mask) := by
  induction h with
  | @last token trail bare blank =>
    have htrail : PineTools.mask trail = trail := mask_tame (tame_of_blanks blank)
    rw [bare.mask_append, htrail]
    exact .last bare.bare_mask.1 blank
  | more bare nonempty blank behind ih =>
    rw [bare.mask_append, mask_blank_append blank]
    exact .more bare.bare_mask.1 nonempty blank ih

theorem chars (h : Spaced body tokens) (htokens : ∀ t ∈ tokens, ∀ c ∈ t, isTokenChar c = true) :
    ∀ c ∈ body, isTokenChar c = true ∨ Text.isBlank c = true := by
  induction h with
  | last bare blank =>
    intro c hc
    rcases List.mem_append.mp hc with hc | hc
    · exact .inl (htokens _ List.mem_cons_self c hc)
    · exact .inr (blank c hc)
  | more bare nonempty blank behind ih =>
    obtain ⟨htoken, hothers⟩ := List.forall_mem_cons.mp htokens
    intro c hc
    rcases List.mem_append.mp hc with hc | hc
    · exact .inl (htoken c hc)
    · rcases List.mem_append.mp hc with hc | hc
      · exact .inr (blank c hc)
      · exact ih hothers c hc

theorem reads (h : Spaced body tokens) : ∃ token others rest trail, tokens = token :: others ∧
    (bareToken : Reader Char Text) body = some (token, rest) ∧ rest.length ≤ body.length ∧
      (∀ fuel, rest.length ≤ fuel → upTo nextToken fuel rest = some (others, trail)) ∧ ∀ c ∈ trail,
        Text.isBlank c = true := by
  induction h with
  | @last token trail bare blank =>
    refine ⟨token, [], trail, trail, rfl, ?_, ?_, fun fuel _ => upTo_nextToken_trail blank fuel,
      blank⟩
    · exact bare.reads fun c hc => blank c (List.mem_of_head? hc)
    · rw [List.length_append]
      exact Nat.le_add_left _ _
  | @more token gap rest tokens bare nonempty blank behind ih =>
    obtain ⟨token', others, rest', trail, rfl, hread, hlen, hothers, htrail⟩ := ih
    obtain ⟨c, more, hbody, hc⟩ := behind.head
    have hgap : (blanks1 : Reader Char Text) (gap ++ rest) = some (gap, rest) := by
      refine run1_eq_some.mpr ⟨nonempty, run_append blank fun g hg => ?_⟩
      rw [hbody] at hg
      cases hg
      exact (Repair.isBlank_of_isTokenEdge hc).1
    have hnext : nextToken (gap ++ rest) = some (token', rest') :=
      discard_bind_eq_some.mpr ⟨gap, rest, hgap, hread⟩
    have hpositive := List.length_pos_iff.mpr nonempty
    refine ⟨token, token' :: others, gap ++ rest, trail, rfl, bare.reads fun c hc => ?_, ?_,
      fun fuel hfuel => ?_, htrail⟩
    · rw [List.head?_append_of_ne_nil _ nonempty] at hc
      exact blank c (List.mem_of_head? hc)
    · simp only [List.length_append]
      omega
    · rw [List.length_append] at hfuel
      obtain ⟨fuel, rfl⟩ : ∃ f, fuel = f + 1 := ⟨fuel - 1, by omega⟩
      refine orElse_eq_some.mpr (.inl (bind_eq_some.mpr ⟨token', rest', hnext, ?_⟩))
      exact bind_eq_some.mpr ⟨others, trail, hothers fuel (by omega), rfl⟩

theorem spacedTokens_eq (h : Spaced body tokens) {lead : Text}
    (hlead : ∀ c ∈ lead, Text.isBlank c = true) :
    (spacedTokens : Reader Char (List Text)) (lead ++ body) = some (tokens, []) := by
  obtain ⟨token, others, rest, trail, rfl, hread, -, hothers, htrail⟩ := h.reads
  obtain ⟨c, more, hbody, hc⟩ := h.head
  have hblanks : (blanks : Reader Char Text) (lead ++ body) = some (lead, body) := by
    refine run_append hlead fun g hg => ?_
    rw [hbody] at hg
    cases hg
    exact (Repair.isBlank_of_isTokenEdge hc).1
  have hrest : (blanks : Reader Char Text) (trail ++ []) = some (trail, []) :=
    run_append htrail fun g hg => by cases hg
  rw [List.append_nil] at hrest
  refine discard_bind_eq_some.mpr ⟨lead, body, hblanks, bind_eq_some.mpr ⟨token, rest, hread, ?_⟩⟩
  refine bind_eq_some.mpr ⟨others, trail, hothers rest.length (Nat.le_refl _), ?_⟩
  exact discard_bind_eq_some.mpr ⟨trail, [], hrest, bind_eq_some.mpr ⟨(), [], rfl, rfl⟩⟩

end Spaced

def gapsFrom (offset : Nat) (before : Option Char) (masked : Text) : List (Nat × Nat) :=
  (matchesFrom offset (Pattern.segmentsFrom tokenGap before 0 masked)).map fun m =>
    (m.start + 1, m.stop)

section Gaps

variable {before : Option Char} {x : Char} {rest : Text}

theorem gapsFrom_plain (offset : Nat) (h : tokenGap before (x :: rest) = none) :
    gapsFrom offset before (x :: rest) = gapsFrom (offset + 1) (some x) rest := by
  rw [gapsFrom, Pattern.segmentsFrom_plain h]
  rfl

theorem tokenGap_eq_none_of_blank (hx : Text.isBlank x = true) :
    tokenGap before (x :: rest) = none := by
  refine Option.eq_none_iff_forall_ne_some.mpr fun r hr => ?_
  obtain ⟨x', gap, y, rest', e, -, hedge, -⟩ := tokenGap_eq_some hr
  cases (List.cons.inj e).1
  rw [show Glyph.seen x = x from rfl] at hedge
  rw [(Repair.isBlank_of_isTokenEdge hedge).1] at hx
  cases hx

theorem tokenGap_eq_none_of_solid {y : Char} (hy : Text.isBlank y = false) :
    tokenGap before (x :: y :: rest) = none := by
  refine Option.eq_none_iff_forall_ne_some.mpr fun r hr => ?_
  obtain ⟨x', gap, y', rest', e, -, -, hne, hblank, -⟩ := tokenGap_eq_some hr
  obtain ⟨g, gap, rfl⟩ := List.exists_cons_of_ne_nil hne
  cases (List.cons.inj (List.cons.inj e).2).1
  have := hblank y List.mem_cons_self
  rw [show Glyph.seen y = y from rfl, hy] at this
  cases this

theorem tokenGap_eq_none_of_trail (hrest : ∀ c ∈ rest, Text.isBlank c = true) :
    tokenGap before (x :: rest) = none := by
  refine Option.eq_none_iff_forall_ne_some.mpr fun r hr => ?_
  obtain ⟨x', gap, y, rest', e, hbehind, -, -, -, hy⟩ := tokenGap_eq_some hr
  rw [hbehind] at e
  have hmem : y ∈ rest := by
    rw [(List.cons.inj e).2]
    exact List.mem_append_right gap List.mem_cons_self
  have hsolid : Text.isBlank y = false := (Repair.isBlank_of_isTokenEdge hy).1
  rw [hrest y hmem] at hsolid
  cases hsolid

theorem gapsFrom_blank {lead : Text} (h : ∀ c ∈ lead, Text.isBlank c = true) (offset : Nat)
    (before : Option Char) (rest : Text) :
    ∃ before', gapsFrom offset before (lead ++ rest) =
      gapsFrom (offset + lead.length) before' rest := by
  induction lead generalizing offset before with
  | nil => exact ⟨before, rfl⟩
  | cons c lead ih =>
    obtain ⟨hc, hlead⟩ := List.forall_mem_cons.mp h
    obtain ⟨before', e⟩ := ih hlead (offset + 1) (some c)
    refine ⟨before', ?_⟩
    rw [List.cons_append, gapsFrom_plain offset (tokenGap_eq_none_of_blank hc), e, List.length_cons,
      Nat.add_assoc, Nat.add_comm 1]

/-- A token is passed over up to its last character. -/
theorem gapsFrom_solid {init : Text} (h : ∀ c ∈ init, Text.isBlank c = false)
    (hx : Text.isBlank x = false) (offset : Nat) (before : Option Char) (rest : Text) :
    ∃ before', gapsFrom offset before (init ++ x :: rest) = gapsFrom (offset + init.length) before'
      (x :: rest) := by
  induction init generalizing offset before with
  | nil => exact ⟨before, rfl⟩
  | cons c init ih =>
    obtain ⟨-, hinit⟩ := List.forall_mem_cons.mp h
    obtain ⟨before', e⟩ := ih hinit (offset + 1) (some c)
    have hplain : tokenGap before (c :: (init ++ x :: rest)) = none := by
      cases init with
      | nil => exact tokenGap_eq_none_of_solid hx
      | cons d init => exact tokenGap_eq_none_of_solid (hinit d List.mem_cons_self)
    refine ⟨before', ?_⟩
    rw [List.cons_append, gapsFrom_plain offset hplain, e, List.length_cons, Nat.add_assoc,
      Nat.add_comm 1]

theorem gapsFrom_gap {gap : Text} {y : Char} (hx : isTokenEdge x = true) (hne : gap ≠ [])
    (hgap : ∀ c ∈ gap, Text.isBlank c = true) (hy : isTokenEdge y = true) (offset : Nat)
    (before : Option Char) (rest : Text) :
    ∃ before', gapsFrom offset before (x :: (gap ++ y :: rest)) =
      (offset + 1, offset + 1 + gap.length) :: gapsFrom (offset + 1 + gap.length) before'
        (y :: rest) := by
  have hread : tokenGap before ((x :: gap) ++ y :: rest) = some ((), y :: rest) := by
    refine discard_bind_eq_some.mpr ⟨x, gap ++ y :: rest, one_eq_some.mpr ⟨rfl, hx⟩, ?_⟩
    refine discard_bind_eq_some.mpr
      ⟨gap, y :: rest, run1_eq_some.mpr ⟨hne, run_append hgap fun g hg => ?_⟩, ?_⟩
    · cases hg
      exact (Repair.isBlank_of_isTokenEdge hy).1
    · have hnext : (one isTokenEdge : Reader Char Char) (y :: rest) = some (y, rest) :=
        one_eq_some.mpr ⟨rfl, hy⟩
      refine ahead_eq_some.mpr ⟨?_, rfl⟩
      rw [hnext]
      rfl
  have hcut := Pattern.segmentsFrom_found (List.cons_ne_nil x gap) hread
  have hstop : offset + (x :: gap).length = offset + 1 + gap.length := by
    rw [List.length_cons]
    omega
  refine ⟨Pattern.passed before (x :: gap), ?_⟩
  rw [gapsFrom, ← List.cons_append, hcut, matchesFrom, List.map_cons, Match.stop, hstop]
  rfl

end Gaps

theorem Spaced.fill {body : Text} {tokens : List Text} (h : Spaced body tokens) :
    ∃ trail, (∀ c ∈ trail, Text.isBlank c = true) ∧ ∀ args lead last before, args.drop last =
      lead ++ body →
      fillGaps args last (gapsFrom (last + lead.length) before (PineTools.mask body)) =
        lead ++ (Text.joinWith separator tokens ++ trail) := by
  have hparts {token : Text} (bare : BareToken token) : ∃ init x, PineTools.mask token =
    init ++ [x] ∧ isTokenEdge x = true ∧
      Text.isBlank x = false ∧ (∀ c ∈ init, Text.isBlank c = false) ∧ token.length =
        init.length + 1 := by
    obtain ⟨hmask, hchars⟩ := bare.bare_mask
    obtain ⟨init, x, e, hx⟩ := hmask.ends.2
    have hsolid : ∀ c ∈ init ++ [x], Text.isBlank c = false :=
      fun c hc => isBlank_of_isTokenChar (hchars c (e ▸ hc))
    obtain ⟨hinit, hlast⟩ := List.forall_mem_append.mp hsolid
    refine ⟨init, x, e, hx, hlast x (List.mem_singleton_self x), hinit, ?_⟩
    rw [← mask_length token, e, List.length_append, List.length_singleton]
  induction h with
  | @last token trail bare blank =>
    refine ⟨trail, blank, fun args lead last before hargs => ?_⟩
    obtain ⟨init, x, hmask, -, hx, hinit, -⟩ := hparts bare
    have htrail : PineTools.mask trail = trail := mask_tame (tame_of_blanks blank)
    obtain ⟨before₁, e₁⟩ := gapsFrom_solid hinit hx (last + lead.length) before trail
    obtain ⟨before₂, e₂⟩ := gapsFrom_blank blank (last + lead.length + init.length + 1) (some x) []
    have hnone : gapsFrom (last + lead.length) before (PineTools.mask (token ++ trail)) = [] := by
      rw [bare.mask_append, htrail, hmask, List.append_assoc, List.singleton_append, e₁,
        gapsFrom_plain _ (tokenGap_eq_none_of_trail blank), ← List.append_nil trail, e₂]
      rfl
    rw [hnone, fillGaps, hargs]
    rfl
  | @more token gap rest tokens bare nonempty blank behind ih =>
    obtain ⟨trail, htrail, hfill⟩ := ih
    refine ⟨trail, htrail, fun args lead last before hargs => ?_⟩
    obtain ⟨init, x, hmask, hedge, hx, hinit, hlen⟩ := hparts bare
    obtain ⟨y, more, hbehind, hy⟩ := behind.mask.head
    have hmasked : PineTools.mask (token ++ (gap ++ rest)) = init ++ x :: (gap ++ y :: more) := by
      rw [bare.mask_append, mask_blank_append blank, hmask, hbehind, List.append_assoc,
        List.singleton_append]
    obtain ⟨before₁, e₁⟩ := gapsFrom_solid hinit hx (last + lead.length) before (gap ++ y :: more)
    obtain ⟨before₂, e₂⟩ :=
      gapsFrom_gap hedge nonempty blank hy (last + lead.length + init.length) before₁ more
    have hend : last + lead.length + init.length + 1 = last + (lead ++ token).length := by
      rw [List.length_append]
      omega
    have hslice : Text.slice args last (last + (lead ++ token).length) = lead ++ token := by
      rw [Text.slice, List.drop_take, hargs, Nat.add_sub_cancel_left, ← List.append_assoc,
        List.take_left]
    have hdrop : args.drop (last + (lead ++ token).length + gap.length) = [] ++ rest := by
      rw [← List.drop_drop, ← List.drop_drop, hargs, ← List.append_assoc lead, List.drop_left,
        List.drop_left]
      rfl
    have hrest := hfill args [] _ before₂ hdrop
    rw [hbehind, List.length_nil, Nat.add_zero, List.nil_append] at hrest
    obtain ⟨t, ts, rfl⟩ := List.exists_cons_of_ne_nil behind.ne_nil
    rw [hmasked, e₁, e₂, fillGaps, hend, hslice, hrest]
    simp [Text.joinWith, separator]

section Joined

theorem joinWith_cons_cons (sep t u : Text) (ts : List Text) :
    Text.joinWith sep (t :: u :: ts) = t ++ sep ++ Text.joinWith sep (u :: ts) := rfl

theorem isSpace_of_isTokenEdge {c : Char} (h : isTokenEdge c = true) : Text.isSpace c = false := by
  rw [isTokenEdge, Bool.or_eq_true] at h
  obtain hword | hquote := h
  · exact Text.not_space_of_word hword
  · obtain ⟨q, hq⟩ := Option.isSome_iff_exists.mp hquote
    rw [Quote.ofChar?_eq_some hq]
    exact q.char_not_white

variable {tokens : List Text} (h : ∀ t ∈ tokens, BareToken t)
include h

theorem mask_joinWith :
    mask (Text.joinWith separator tokens) = Text.joinWith separator (tokens.map mask) := by
  induction tokens with
  | nil => rfl
  | cons t ts ih =>
    obtain ⟨ht, hts⟩ := List.forall_mem_cons.mp h
    cases ts with
    | nil => rfl
    | cons u us =>
      have hseparator : ∀ c ∈ separator, Tame c := by decide
      rw [joinWith_cons_cons, List.append_assoc, ht.mask_append, mask_tame_append hseparator,
        ih hts, List.map_cons, List.map_cons, List.map_cons, joinWith_cons_cons, List.append_assoc]

theorem ends_joinWith (hne : tokens ≠ []) :
    (∃ c more, Text.joinWith separator tokens = c :: more ∧ isTokenEdge c = true) ∧
    ∃ init c, Text.joinWith separator tokens = init ++ [c] ∧ isTokenEdge c = true := by
  induction tokens with
  | nil => exact absurd rfl hne
  | cons t ts ih =>
    obtain ⟨ht, hts⟩ := List.forall_mem_cons.mp h
    cases ts with
    | nil => exact ht.ends
    | cons u us =>
      obtain ⟨c, more, rfl, hc⟩ := ht.ends.1
      obtain ⟨-, init, d, e, hd⟩ := ih hts (List.cons_ne_nil u us)
      rw [joinWith_cons_cons, e]
      exact ⟨⟨c, _, rfl, hc⟩, (c :: more) ++ separator ++ init, d, (List.append_assoc _ _ _).symm,
        hd⟩

theorem strip_joinWith (hne : tokens ≠ []) {lead trail : Text}
    (hlead : ∀ c ∈ lead, Text.isBlank c = true) (htrail : ∀ c ∈ trail, Text.isBlank c = true) :
    Text.strip (lead ++ (Text.joinWith separator tokens ++ trail)) =
      Text.joinWith separator tokens := by
  obtain ⟨⟨c, more, hfirst, hc⟩, init, d, hlast, hd⟩ := ends_joinWith h hne
  have hleft : Text.trimLeft Text.isSpace (lead ++ (Text.joinWith separator tokens ++ trail)) =
      Text.joinWith separator tokens ++ trail := by
    rw [Text.trimLeft, List.dropWhile_append_of_pos (Text.white_of_blanks hlead), hfirst,
      List.cons_append, List.dropWhile_cons_of_neg (by simp [isSpace_of_isTokenEdge hc])]
  rw [Text.strip, hleft, hlast, List.append_assoc, List.singleton_append,
    Layout.trimRight_append_solid (isSpace_of_isTokenEdge hd),
    Layout.trimRight_eq_nil (Text.white_of_blanks htrail)]

end Joined

theorem strip_mask {s : Text} (h : BareToken s) (lead : Text)
    (hlead : ∀ c ∈ lead, Text.isBlank c = true) :
    Text.strip (lead ++ mask s) = mask s := by
  have hone := strip_joinWith (List.forall_mem_singleton.mpr h.bare_mask.1)
    (List.cons_ne_nil _ _) hlead
    (List.forall_mem_nil _)
  rwa [List.append_nil] at hone

theorem isArgument_of_plain {a : Text} (hsolid : Text.isAllSpace a = false)
    (hplain : ∀ c ∈ a, isOpener c = false ∧ isCloser c = false ∧ c ≠ ',') : IsArgument a := by
  have hdepth : ∀ p, (∀ c ∈ p, c ∈ a) → bracketDepth p = 0 := by
    intro p hp
    have hopeners : p.countP isOpener = 0 := List.countP_eq_zero.mpr fun c hc => by
      simp [(hplain c (hp c hc)).1]
    have hclosers : p.countP isCloser = 0 := List.countP_eq_zero.mpr fun c hc => by
      simp [(hplain c (hp c hc)).2.1]
    rw [bracketDepth, hopeners, hclosers]
    rfl
  refine ⟨hsolid, fun p hp => ?_, hdepth a fun c hc => hc, fun p hp => ?_⟩
  · exact Int.le_of_eq (hdepth p fun c hc => hp.subset hc).symm
  · have hcomma : ',' ∈ a := hp.subset (List.mem_append_right p (List.mem_singleton_self ','))
    exact absurd rfl (hplain ',' hcomma).2.2

theorem joinWith_eq_joinArguments (t : Text) (ts : List Text) :
    Text.joinWith separator (t :: ts) = joinArguments (t :: ts.map (' ' :: ·)) := by
  induction ts generalizing t with
  | nil => rfl
  | cons u us ih =>
    have hblank (rest : List Text) : joinArguments ((' ' :: u) :: rest) =
        ' ' :: joinArguments (u :: rest) := by
      cases rest with
      | nil => rfl
      | cons v vs => rfl
    rw [joinWith_cons_cons, ih, List.map_cons, joinArguments_cons_cons, hblank]
    simp [separator]

theorem mem_joinWith_separator {t u : Text} {ts : List Text} :
    ',' ∈ Text.joinWith separator (t :: u :: ts) := by
  rw [joinWith_cons_cons, List.append_assoc]
  exact List.mem_append_right t (List.mem_append_left _ List.mem_cons_self)

theorem splitArguments_joinWith {t : Text} {ts : List Text} (h : ∀ s ∈ t :: ts, BareToken s) :
    splitArguments (mask (Text.joinWith separator (t :: ts))) =
      mask t :: ts.map (' ' :: mask ·) := by
  have hplain {s : Text} (hs : BareToken s) : IsArgument (mask s) ∧ IsArgument (' ' :: mask s) := by
    obtain ⟨hmask, hchars⟩ := hs.bare_mask
    obtain ⟨c, more, e, hc⟩ := hmask.ends.1
    have hsolid : Text.isAllSpace (mask s) = false := by
      rw [e, Text.isAllSpace, List.all_cons, isSpace_of_isTokenEdge hc, Bool.false_and]
    have hquiet : ∀ c ∈ mask s, isOpener c = false ∧ isCloser c = false ∧ c ≠ ',' := by
      intro c hc
      exact plain_of_isTokenChar (hchars c hc)
    refine ⟨isArgument_of_plain hsolid hquiet,
      isArgument_of_plain ?_ (List.forall_mem_cons.mpr ⟨by decide, hquiet⟩)⟩
    rw [Text.isAllSpace, List.all_cons, ← Text.isAllSpace, hsolid, Bool.and_false]
  rw [mask_joinWith h, List.map_cons, joinWith_eq_joinArguments, List.map_map]
  refine splitArguments_joinArguments ?_
  obtain ⟨ht, hts⟩ := List.forall_mem_cons.mp h
  refine List.forall_mem_cons.mpr ⟨(hplain ht).1, fun a ha => ?_⟩
  obtain ⟨s, hs, rfl⟩ := List.mem_map.mp ha
  exact (hplain (hts s hs)).2

section Written

variable {lead body : Text} {tokens : List Text} (hlead : ∀ c ∈ lead, Text.isBlank c = true)
    (h : Spaced body tokens)
include hlead h

theorem comma_not_mem_mask : ',' ∉ mask (lead ++ body) := by
  rw [mask_blank_append hlead]
  intro hc
  rcases List.mem_append.mp hc with hc | hc
  · exact absurd (hlead ',' hc) (by decide)
  · have hchars := h.mask.chars fun t ht => ?_
    · exact absurd (hchars ',' hc) (by decide)
    · obtain ⟨s, hs, rfl⟩ := List.mem_map.mp ht
      exact (h.bare s hs).bare_mask.2

/-- The list is seen to lack its commas. -/
theorem isSpaceSeparated_mask (hseveral : 2 ≤ tokens.length) (hfree : ∀ t ∈ tokens, isKeyword t =
    false ∧ isTypeKeyword t = false) :
    isSpaceSeparated (mask (lead ++ body)) = true := by
  have hcontains : ¬ (mask (lead ++ body)).contains ',' = true := fun e =>
    comma_not_mem_mask hlead h (List.contains_iff_mem.mp e)
  have hread : (spacedTokens : Reader Char (List Text)) (mask (lead ++ body)) =
      some (tokens.map mask, []) := by
    rw [mask_blank_append hlead]
    exact h.mask.spacedTokens_eq hlead
  have hreserved : ((tokens.map mask).all fun t => !isKeyword t && !isTypeKeyword t) = true := by
    rw [List.all_map]
    refine List.all_eq_true.mpr fun t ht => ?_
    obtain ⟨hkeyword, htype⟩ := (h.bare t ht).free_mask (hfree t ht)
    simp [hkeyword, htype]
  rw [isSpaceSeparated, if_neg hcontains, hread]
  simpa [hseveral] using hreserved

/-- The commas are put behind the tokens, and the blanks around the list are dropped. -/
theorem insertCommas_mask :
    insertCommas (lead ++ body) (mask (lead ++ body)) = Text.joinWith separator tokens := by
  obtain ⟨trail, htrail, hfill⟩ := h.fill
  obtain ⟨before, hgaps⟩ := gapsFrom_blank hlead 0 none (mask body)
  have hfilled := hfill (lead ++ body) lead 0 before rfl
  rw [← hgaps, ← mask_blank_append hlead] at hfilled
  exact (congrArg Text.strip hfilled).trans (strip_joinWith h.bare h.ne_nil hlead htrail)

end Written

/-- An argument list of bare tokens with blanks between and around them is seen to lack its commas.
They are put in, a comma and a blank between any two tokens, and are then seen to be there; every
token is an argument of its own. -/
theorem commas_separate_bare_tokens {lead body : Text} {tokens : List Text}
    (hlead : ∀ c ∈ lead, Text.isBlank c = true) (h : Spaced body tokens)
    (hseveral : 2 ≤ tokens.length) (hfree : ∀ t ∈ tokens, isKeyword t = false ∧
      isTypeKeyword t = false) :
    let args := lead ++ body
    let result := insertCommas args (mask args)
    isSpaceSeparated (mask args) = true ∧ result = Text.joinWith [',', ' '] tokens ∧
      isSpaceSeparated (mask result) = false ∧
      (splitArguments (mask result)).length = tokens.length ∧
      (splitArguments (mask result)).map Text.strip = tokens.map mask := by
  intro args result
  have hresult : result = Text.joinWith separator tokens := insertCommas_mask hlead h
  refine ⟨isSpaceSeparated_mask hlead h hseveral hfree, hresult, ?_⟩
  obtain ⟨t, u, ts, rfl⟩ : ∃ t u ts, tokens = t :: u :: ts := by
    match tokens, hseveral with
    | t :: u :: ts, _ => exact ⟨t, u, ts, rfl⟩
  have hsplit := splitArguments_joinWith h.bare
  refine ⟨?_, ?_, ?_⟩
  · have hcontains : (mask result).contains ',' = true := by
      rw [hresult, mask_joinWith h.bare]
      exact List.contains_iff_mem.mpr mem_joinWith_separator
    rw [isSpaceSeparated, if_pos hcontains]
  · rw [hresult, hsplit]
    simp
  · have hstrip : ∀ s ∈ u :: ts, Text.strip (' ' :: mask s) = mask s := fun s hs =>
      strip_mask (h.bare s (List.mem_cons_of_mem t hs)) [' '] (by decide)
    have hfirst : Text.strip (mask t) = mask t :=
      strip_mask (h.bare t List.mem_cons_self) [] (by simp)
    rw [hresult, hsplit, List.map_cons, hfirst, List.map_map]
    exact congrArg _ (List.map_congr_left hstrip)

/-- A dotted name, a number with a fraction, a name of one character and two literals, one with
blanks and a comma in it. -/
theorem commas_separate_bare_tokens_mixed :
    let body := "ta.sma 1.5 \tx 'a, b' \"c\"  ".toList
    let tokens := ["ta.sma".toList, "1.5".toList, "x".toList, "'a, b'".toList, "\"c\"".toList]
    (∀ c ∈ [' '], Text.isBlank c = true) ∧ Spaced body tokens ∧ 2 ≤ tokens.length ∧
      (∀ t ∈ tokens, isKeyword t = false ∧ isTypeKeyword t = false) ∧
      insertCommas (' ' :: body) (mask (' ' :: body)) = "ta.sma, 1.5, x, 'a, b', \"c\"".toList := by
  intro body tokens
  have hlead : ∀ c ∈ [' '], Text.isBlank c = true := by decide
  have hname : BareToken "ta.sma".toList := .name (by decide) (by decide) (by decide)
  have hnumber : BareToken "1.5".toList := @BareToken.fraction ['1'] ['5'] (by decide) (by decide)
  have hx : BareToken "x".toList := .name (by decide) (by decide) (by decide)
  have hsingle : BareToken "'a, b'".toList := @BareToken.literal .single "a, b".toList (by decide)
  have hdouble : BareToken "\"c\"".toList := @BareToken.literal .double ['c'] (by decide)
  have hspaced : Spaced body tokens :=
    @Spaced.more _ [' '] _ _ hname (by decide) (by decide) <|
    @Spaced.more _ [' ', '\t'] _ _ hnumber (by decide) (by decide) <|
    @Spaced.more _ [' '] _ _ hx (by decide) (by decide) <|
    @Spaced.more _ [' '] _ _ hsingle (by decide) (by decide) <|
    @Spaced.last _ [' ', ' '] hdouble (by decide)
  have hfree : ∀ t ∈ tokens, isKeyword t = false ∧ isTypeKeyword t = false := by decide
  have hcommas := commas_separate_bare_tokens hlead hspaced (by decide) hfree
  exact ⟨hlead, hspaced, by decide, hfree, hcommas.2.1⟩

end PineTools
