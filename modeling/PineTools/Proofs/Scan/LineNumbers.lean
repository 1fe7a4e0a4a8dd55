import PineTools.Proofs.Scan.Composition
import PineTools.Proofs.Scan.Nesting
import PineTools.Proofs.Scan.Places
import PineTools.Proofs.Text.LineStarts

namespace PineTools

open Mode

/-- A literal that a quote opens in code at one offset and that is still going on at another. -/
structure LiteralUpTo (t : Text) (q : Quote) (i j : Nat) : Prop where
  starts : (modeAt t i).inCode = true
  opens : (cells t)[i]? = some ⟨q.char, .literal q, true⟩
  lt : i < j
  inside : ∀ k, i < k → k < j → ∃ c, (cells t)[k]? = some ⟨c, .literal q, false⟩

/-- A literal that its line does not close: it is still going on where the line, or the script,
ends. -/
structure OpenLiteral (t : Text) (q : Quote) (i j : Nat) : Prop extends LiteralUpTo t q i j where
  ends : j = t.length ∨ t[j]? = some '\n'

/-- A block comment that the script does not end. -/
structure OpenComment (t : Text) (i : Nat) : Prop where
  starts : (modeAt t i).inCode = true
  opens : ['/', '*'] <+: t.drop i
  never : ¬ ['*', '/'] <:+: t.drop (i + 2)

namespace Mode

def quote? : Mode → Option Quote
  | literal q | escaped q => some q
  | _ => none

/-- A literal goes on behind a character if a quote opens it there in code, or if it went on before.
-/
theorem quote?_step {m : Mode} {c : Char} {ahead : Option Char} {q : Quote}
    (h : (m.step c ahead).2.quote? = some q) :
    m.inCode = true ∧ (m.step c ahead).1 = ⟨q.char, .literal q, true⟩ ∨
      m.quote? = some q ∧ (m.step c ahead).1 = ⟨c, .literal q, false⟩ := by
  cases m with
  | code b =>
    rw [step] at h ⊢
    obtain ⟨-, -, e⟩ | ⟨-, -, e⟩ | ⟨q', -, hq, e⟩ | ⟨-, -, e⟩ := stepCode_cases b c ahead
    · simp [e, quote?] at h
    · simp [e, quote?] at h
    · left
      have hqq : q' = q := by simpa [e, quote?] using h
      rw [e, hqq, Quote.ofChar?_eq_some hq, hqq]
      exact ⟨rfl, rfl⟩
    · simp [e, quote?] at h
  | literal q' =>
    rw [step] at h ⊢
    obtain ⟨-, e⟩ | ⟨-, e⟩ | ⟨-, -, e⟩ | ⟨-, -, -, e⟩ := stepLiteral_cases q' c ahead
    · simp [e, quote?] at h
    · simp [e, quote?] at h
    · right
      simpa [e, quote?] using h
    · right
      simpa [e, quote?] using h
  | line =>
    rw [step] at h
    split at h <;> cases h
  | block =>
    rw [step] at h
    split at h <;> cases h
  | escaped q' =>
    right
    simpa [step, quote?] using h
  | lineSecond | blockSecond | blockLast => cases h

theorem quote?_of_opens {m : Mode} {c : Char} {ahead : Option Char} {q : Quote}
    (hm : m.inCode = true) (h : (m.step c ahead).1.region = .literal q) :
    (m.step c ahead).2.quote? = some q := by
  obtain ⟨b, rfl⟩ := exists_code_of_inCode hm
  rw [step] at h ⊢
  obtain ⟨-, -, e⟩ | ⟨-, -, e⟩ | ⟨q', -, hq, e⟩ | ⟨-, -, e⟩ := stepCode_cases b c ahead
  · simp [e] at h
  · simp [e] at h
  · simpa [e, quote?] using h
  · simp [e] at h

theorem quote?_of_inside {m : Mode} {c : Char} {ahead : Option Char} {q : Quote}
    (hm : m.quote? = some q) (h : (m.step c ahead).1 = ⟨c, .literal q, false⟩) :
    (m.step c ahead).2.quote? = some q := by
  cases m with
  | literal q' =>
    rw [step] at h ⊢
    obtain ⟨-, e⟩ | ⟨-, e⟩ | ⟨-, -, e⟩ | ⟨-, -, -, e⟩ := stepLiteral_cases q' c ahead
    · simp [e] at h
    · simp [e] at h
    · simpa [e, quote?] using hm
    · simpa [e, quote?] using hm
  | escaped q' => exact hm
  | code b | line | lineSecond | block | blockSecond | blockLast => cases hm

theorem eq_block_of_step {m : Mode} {c : Char} {ahead : Option Char}
    (h : (m.step c ahead).2 = .block) :
    m = .blockSecond ∨ m = .block ∧ ¬ (c = '*' ∧ ahead = some '/') := by
  cases m with
  | code b =>
    rw [step] at h
    obtain ⟨-, -, e⟩ | ⟨-, -, e⟩ | ⟨q, -, -, e⟩ | ⟨-, -, e⟩ := stepCode_cases b c ahead <;>
      simp [e] at h
  | literal q =>
    rw [step] at h
    obtain ⟨-, e⟩ | ⟨-, e⟩ | ⟨-, -, e⟩ | ⟨-, -, -, e⟩ := stepLiteral_cases q c ahead <;>
      simp [e] at h
  | line =>
    rw [step] at h
    split at h <;> cases h
  | block =>
    rw [step] at h
    right
    refine ⟨rfl, fun hend => ?_⟩
    rw [if_pos hend] at h
    cases h
  | blockSecond => exact .inl rfl
  | lineSecond | blockLast | escaped q => cases h

theorem opens_of_step {m : Mode} {c : Char} {ahead : Option Char}
    (h : (m.step c ahead).2 = .blockSecond) :
    m.inCode = true ∧ c = '/' ∧ ahead = some '*' := by
  cases m with
  | code b =>
    rw [step] at h
    obtain ⟨-, -, e⟩ | ⟨hc, ha, e⟩ | ⟨q, -, -, e⟩ | ⟨-, -, e⟩ := stepCode_cases b c ahead
    · simp [e] at h
    · exact ⟨rfl, hc, ha⟩
    · simp [e] at h
    · simp [e] at h
  | literal q =>
    rw [step] at h
    obtain ⟨-, e⟩ | ⟨-, e⟩ | ⟨-, -, e⟩ | ⟨-, -, -, e⟩ := stepLiteral_cases q c ahead <;>
      simp [e] at h
  | line | block =>
    rw [step] at h
    split at h <;> cases h
  | lineSecond | blockSecond | blockLast | escaped q => cases h

end Mode

section Offsets

variable {t : Text} {i j : Nat}

theorem step_of_cell {c : Cell} (h : (cells t)[i]? = some c) :
    t[i]? = some c.char ∧ (modeAt t i).step c.char t[i + 1]? = (c, modeAt t (i + 1)) := by
  obtain ⟨hi, hc⟩ := List.getElem?_eq_some_iff.mp h
  have hsplit : cells t = (cells t).take i ++ c :: (cells t).drop (i + 1) := by
    rw [← hc, ← List.drop_eq_getElem_cons hi, List.take_append_drop]
  have hlen : ((cells t).take i).length = i := List.length_take_of_le (Nat.le_of_lt hi)
  obtain ⟨behind, hdrop, hstep⟩ := read_cell hsplit
  rw [hlen] at hdrop hstep
  have hbehind : behind.head? = t[i + 1]? := by
    rw [← List.head?_drop, ← List.drop_drop, hdrop]
    rfl
  rw [hbehind] at hstep
  refine ⟨?_, hstep⟩
  rw [← List.head?_drop, hdrop]
  rfl

theorem cell_of_char {c : Char} (h : t[i]? = some c) :
    (cells t)[i]? = some ((modeAt t i).step c t[i + 1]?).1 := by
  obtain ⟨hi, -⟩ := List.getElem?_eq_some_iff.mp h
  have hcell := List.getElem?_eq_getElem (l := cells t) (i := i) (by rwa [cells, cellsFrom_length])
  obtain ⟨hchar, hstep⟩ := step_of_cell hcell
  rw [h] at hchar
  rw [hcell, Option.some.inj hchar, hstep]

theorem modeAt_of_char {c : Char} (h : t[i]? = some c) :
    modeAt t (i + 1) = ((modeAt t i).step c t[i + 1]?).2 := by
  obtain ⟨hchar, hstep⟩ := step_of_cell (cell_of_char h)
  rw [step_char] at hstep
  exact (congrArg Prod.snd hstep).symm

theorem not_newline_of_cell {c : Cell} (h : (cells t)[i]? = some c)
    (hc : c.region.isLiteral = true) : c.char ≠ '\n' := by
  intro e
  obtain hr | hr := region_of_newline rfl t c (List.mem_of_getElem? h) e
  · simp [hr, Region.isLiteral] at hc
  · simp [hr, Region.isLiteral] at hc

end Offsets

section Literals

variable {t : Text} {q : Quote} {i j : Nat}

theorem exists_literalUpTo (hj : j ≤ t.length) (h : (modeAt t j).quote? = some q) :
    ∃ i, LiteralUpTo t q i j := by
  induction j with
  | zero => cases h
  | succ j ih =>
    have hchar : t[j]? = some t[j] := List.getElem?_eq_getElem hj
    have hcell := cell_of_char hchar
    rw [modeAt_of_char hchar] at h
    obtain ⟨hcode, e⟩ | ⟨hquote, e⟩ := quote?_step h
    · rw [e] at hcell
      exact ⟨j, hcode, hcell, Nat.lt_succ_self j, fun k hk hk' => by omega⟩
    · rw [e] at hcell
      obtain ⟨i, hi⟩ := ih (Nat.le_of_succ_le hj) hquote
      refine ⟨i, hi.starts, hi.opens, Nat.lt_succ_of_lt hi.lt, fun k hk hk' => ?_⟩
      rcases Nat.lt_succ_iff_lt_or_eq.mp hk' with hlt | rfl
      · exact hi.inside k hk hlt
      · exact ⟨_, hcell⟩

theorem LiteralUpTo.going_on (h : LiteralUpTo t q i j) :
    (modeAt t j).quote? = some q ∧ Text.lineAt t j = Text.lineAt t i := by
  obtain ⟨n, rfl⟩ := Nat.exists_eq_add_of_lt h.lt
  have hrun : ∀ n, (∀ k, i < k → k < i + n + 1 → ∃ c, (cells t)[k]? = some ⟨c, .literal q, false⟩) →
      (modeAt t (i + n + 1)).quote? = some q ∧ Text.lineAt t (i + n + 1) = Text.lineAt t i := by
    intro n
    induction n with
    | zero =>
      intro _
      obtain ⟨hchar, hstep⟩ := step_of_cell h.opens
      have hquote := @quote?_of_opens (modeAt t i) q.char t[i + 1]? q h.starts (by rw [hstep])
      rw [hstep] at hquote
      refine ⟨hquote, ?_⟩
      rw [Nat.add_zero, Text.lineAt_succ hchar, if_neg (not_newline_of_cell h.opens rfl)]
    | succ n ih =>
      intro hinside
      obtain ⟨hquote, hline⟩ := ih fun k hk hk' => hinside k hk (Nat.lt_succ_of_lt hk')
      obtain ⟨c, hcell⟩ := hinside (i + n + 1) (by omega) (by omega)
      obtain ⟨hchar, hstep⟩ := step_of_cell hcell
      have hnext := @quote?_of_inside (modeAt t (i + n + 1)) c t[i + n + 1 + 1]? q hquote
        (by rw [hstep])
      rw [hstep] at hnext
      refine ⟨hnext, ?_⟩
      rw [← hline]
      change Text.lineAt t (i + n + 1 + 1) = _
      rw [Text.lineAt_succ hchar, if_neg (not_newline_of_cell hcell rfl)]
  exact hrun n h.inside

theorem mem_openAt {m : Mode} {number : Nat} {atEnd : Bool} {u : UnclosedLiteral} :
    u ∈ openAt m number atEnd ↔ m = .literal u.quote ∧ u.line = number ∧ u.atEnd = atEnd := by
  cases u
  cases m with
  | literal q =>
    simp only [openAt, List.mem_singleton, UnclosedLiteral.mk.injEq, Mode.literal.injEq]
    constructor
    · rintro ⟨rfl, rfl, rfl⟩
      exact ⟨rfl, rfl, rfl⟩
    · rintro ⟨rfl, rfl, rfl⟩
      exact ⟨rfl, rfl, rfl⟩
  | code b | line | lineSecond | block | blockSecond | blockLast | escaped q => simp [openAt]

theorem mem_unclosedFrom {m : Mode} {number : Nat} {t : Text} {u : UnclosedLiteral} :
    u ∈ unclosedFrom m number t ↔
    ∃ j, (j = t.length ∧ u.atEnd = true ∨ t[j]? = some '\n' ∧ u.atEnd = false) ∧
      m.after (t.drop j).head? (t.take j) = .literal u.quote ∧
      u.line = number + (t.take j).count '\n' := by
  induction t generalizing m number with
  | nil =>
    rw [unclosedFrom_nil, mem_openAt]
    constructor
    · rintro ⟨hm, hline, hend⟩
      exact ⟨0, .inl ⟨rfl, hend⟩, hm, hline⟩
    · rintro ⟨j, ⟨rfl, hend⟩ | ⟨hn, -⟩, hm, hline⟩
      · exact ⟨hm, hline, hend⟩
      · cases hn
  | cons c cs ih =>
    have hhead (j : Nat) : m.after ((c :: cs).drop (j + 1)).head? ((c :: cs).take (j + 1)) =
        (m.step c cs.head?).2.after (cs.drop j).head? (cs.take j) := by
      rw [List.drop_succ_cons, List.take_succ_cons, Mode.after, ← List.head?_append,
        List.take_append_drop]
    have hcount (j : Nat) : (if c = '\n' then number + 1 else number) + (cs.take j).count '\n' =
        number + ((c :: cs).take (j + 1)).count '\n' := line_after_cons number c (cs.take j)
    rw [unclosedFrom_step, List.mem_append, ih]
    constructor
    · rintro (hfirst | ⟨j, hend, hmode, hline⟩)
      · by_cases hc : c = '\n'
        · rw [if_pos hc, mem_openAt] at hfirst
          obtain ⟨hm, hline, hend⟩ := hfirst
          exact ⟨0, .inr ⟨congrArg some hc, hend⟩, hm, hline⟩
        · rw [if_neg hc] at hfirst
          cases hfirst
      · refine ⟨j + 1, ?_, (hhead j).trans hmode, hline.trans (hcount j)⟩
        simpa using hend
    · rintro ⟨j, hend, hmode, hline⟩
      cases j with
      | zero =>
        left
        obtain ⟨hlen, -⟩ | ⟨hn, hat⟩ := hend
        · cases hlen
        · rw [if_pos (Option.some.inj hn), mem_openAt]
          exact ⟨hmode, hline, hat⟩
      | succ j =>
        right
        refine ⟨j, ?_, (hhead j).symm.trans hmode, hline.trans (hcount j).symm⟩
        simpa using hend

theorem mem_unclosedLiterals {t : Text} {u : UnclosedLiteral} : u ∈ unclosedLiterals t ↔
    ∃ i j, OpenLiteral t u.quote i j ∧ u.line = Text.lineAt t i ∧ u.line = Text.lineAt t j ∧
      (u.atEnd = true ↔ j = t.length) := by
  rw [unclosedLiterals, mem_unclosedFrom]
  constructor
  · rintro ⟨j, hend, hmode, hline⟩
    rw [← modeAt] at hmode
    rw [Nat.add_comm, ← Text.lineAt] at hline
    have hj : j ≤ t.length := by
      obtain ⟨rfl, -⟩ | ⟨hn, -⟩ := hend
      · exact Nat.le_refl _
      · exact Nat.le_of_lt (List.getElem?_eq_some_iff.mp hn).1
    obtain ⟨i, hi⟩ := exists_literalUpTo hj (by rw [hmode, quote?])
    refine ⟨i, j, ⟨hi, hend.imp And.left And.left⟩, hline.trans hi.going_on.2, hline, ?_⟩
    obtain ⟨rfl, hat⟩ | ⟨hn, hat⟩ := hend
    · simp [hat]
    · have := (List.getElem?_eq_some_iff.mp hn).1
      simp [hat, Nat.ne_of_lt this]
  · rintro ⟨i, j, hopen, -, hline, hat⟩
    have hsettled : (modeAt t j).settled = true := by
      refine settled_modeAt ?_
      rw [List.head?_drop]
      exact hopen.ends.imp (fun e => List.getElem?_eq_none (Nat.le_of_eq e.symm)) id
    refine ⟨j, ?_, ?_, by rw [hline, Text.lineAt, Nat.add_comm]⟩
    · obtain rfl | hn := hopen.ends
      · exact .inl ⟨rfl, hat.mpr rfl⟩
      · refine .inr ⟨hn, Bool.eq_false_iff.mpr fun e => ?_⟩
        exact absurd (hat.mp e) (Nat.ne_of_lt (List.getElem?_eq_some_iff.mp hn).1)
    · rw [← modeAt]
      have hquote := hopen.going_on.1
      cases hm : modeAt t j with
      | literal q => simpa [hm, quote?] using hquote
      | escaped q => simp [hm, settled] at hsettled
      | code b | line | lineSecond | block | blockSecond | blockLast => simp [hm, quote?] at hquote

end Literals

section Comments

variable {t : Text}

theorem not_ends_cons {c : Char} {cs : Text} (h : ¬ (c = '*' ∧ cs.head? = some '/'))
    (hcs : ¬ ['*', '/'] <:+: cs) :
    ¬ ['*', '/'] <:+: c :: cs := by
  rw [List.infix_cons_iff]
  rintro (hhere | hlater)
  · obtain ⟨rest, e⟩ := hhere
    obtain ⟨rfl, rfl⟩ := List.cons.inj e
    exact h ⟨rfl, rfl⟩
  · exact hcs hlater

/-- A block comment that goes on to the end goes on from before, or is opened in code, and nothing
ends it. -/
theorem exists_opening {m : Mode} (h : (m.after none t).inBlock = true) :
    m = .block ∧ ¬ ['*', '/'] <:+: t ∨ m = .blockSecond ∧ ¬ ['*', '/'] <:+: t.drop 1 ∨
      ∃ i, (m.after (t.drop i).head? (t.take i)).inCode = true ∧ ['/', '*'] <+: t.drop i ∧
      ¬ ['*', '/'] <:+: t.drop (i + 2) := by
  induction t generalizing m with
  | nil => cases m <;> simp_all [Mode.after, inBlock]
  | cons c cs ih =>
    rw [Mode.after, Option.or_none] at h
    obtain ⟨hnext, hnever⟩ | ⟨hnext, hnever⟩ | ⟨i, hcode, hopens, hnever⟩ := ih h
    · obtain rfl | ⟨rfl, hstays⟩ := eq_block_of_step hnext
      · exact .inr (.inl ⟨rfl, hnever⟩)
      · exact .inl ⟨rfl, not_ends_cons hstays hnever⟩
    · obtain ⟨hcode, rfl, hstar⟩ := opens_of_step hnext
      obtain ⟨rest, rfl⟩ := List.head?_eq_some_iff.mp hstar
      exact .inr (.inr ⟨0, hcode, List.prefix_append ['/', '*'] rest, hnever⟩)
    · right; right
      refine ⟨i + 1, ?_, hopens, hnever⟩
      rw [List.drop_succ_cons, List.take_succ_cons, Mode.after, ← List.head?_append,
        List.take_append_drop]
      exact hcode

theorem openCommentFrom_of_never (opened number : Nat) {t : Text} (h : ¬ ['*', '/'] <:+: t) :
    openCommentFrom .block opened number t = some opened := by
  induction t generalizing number with
  | nil => rfl
  | cons c cs ih =>
    have hstays : ¬ (c = '*' ∧ cs.head? = some '/') := by
      rintro ⟨rfl, hslash⟩
      obtain ⟨rest, rfl⟩ := List.head?_eq_some_iff.mp hslash
      exact h ⟨[], rest, rfl⟩
    have hstep : (Mode.block.step c cs.head?).2 = .block := by
      rw [step, if_neg hstays]
    rw [openCommentFrom, hstep]
    exact ih _ fun hlater => h (hlater.trans (List.suffix_cons c cs).isInfix)

theorem OpenComment.reported {i : Nat} (h : OpenComment t i) :
    openComment? t = some (Text.lineAt t i) := by
  obtain ⟨rest, hrest⟩ := h.opens
  have hdrop : t.drop (i + 2) = rest := by
    rw [← List.drop_drop, ← hrest]
    rfl
  have hnever := h.never
  rw [hdrop] at hnever
  rw [openComment?, ← List.take_append_drop i t, openCommentFrom_append, List.take_append_drop,
    ← modeAt, ← hrest]
  obtain ⟨b, hm⟩ := exists_code_of_inCode h.starts
  have hopen := openCommentFrom_of_never (Text.lineAt t i) (Text.lineAt t i) hnever
  rw [hm, Nat.add_comm 1, ← Text.lineAt]
  exact hopen

theorem openComment?_eq_some {number : Nat} :
    openComment? t = some number ↔ ∃ i, OpenComment t i ∧ number = Text.lineAt t i := by
  constructor
  · intro h
    have hblock : (Mode.start.after none t).inBlock = true := by
      rw [← modeAt_length, ← openComment?_isSome_iff, h]
      rfl
    obtain ⟨hm, -⟩ | ⟨hm, -⟩ | ⟨i, hstarts, hopens, hnever⟩ := exists_opening hblock
    · cases hm
    · cases hm
    · have hi : OpenComment t i := ⟨hstarts, hopens, hnever⟩
      rw [hi.reported] at h
      exact ⟨i, hi, (Option.some.inj h).symm⟩
  · rintro ⟨i, hi, rfl⟩
    exact hi.reported

end Comments

structure BracketAt where
  kind : Bracket
  offset : Nat
  deriving DecidableEq, Repr, Inhabited

/-- A closer that does not fit, with the opener it met. -/
structure Misfit where
  closer : BracketAt
  met : Option BracketAt
  deriving DecidableEq, Repr, Inhabited

/-- What the cell at an offset does to the openers that wait, the last one first. -/
def misfitStep (waiting : List BracketAt) (offset : Nat) (c : Cell) :
    List Misfit × List BracketAt :=
  if c.isCode then
    match Bracket.ofOpener? c.char, Bracket.ofCloser? c.char with
    | some kind, _ => ([], ⟨kind, offset⟩ :: waiting)
    | none, none => ([], waiting)
    | none, some kind =>
      (if waiting.head?.map BracketAt.kind = some kind then []
        else [⟨⟨kind, offset⟩, waiting.head?⟩], waiting.tail)
  else ([], waiting)

/-- The closers that do not fit, and the openers that are left in the end, the last one first. -/
def misfitsFrom (waiting : List BracketAt) (offset : Nat) : List Cell → List Misfit × List BracketAt
  | [] => ([], waiting)
  | c :: cs =>
    ((misfitStep waiting offset c).1 ++
      (misfitsFrom (misfitStep waiting offset c).2 (offset + 1) cs).1,
      (misfitsFrom (misfitStep waiting offset c).2 (offset + 1) cs).2)

def misfits (t : Text) : List Misfit := (misfitsFrom [] 0 (cells t)).1

/-- The openers of a script that are never closed, in order. -/
def neverClosed (t : Text) : List BracketAt := (misfitsFrom [] 0 (cells t)).2.reverse

def BracketAt.onLine (line : Nat → Nat) (b : BracketAt) : OpenBracket := ⟨b.kind, line b.offset⟩

def Misfit.onLine (line : Nat → Nat) (m : Misfit) : BracketIssue :=
  ⟨m.closer.kind, line m.closer.offset, m.met.map (BracketAt.onLine line)⟩

section Brackets

variable {t : Text}

theorem bracketStep_onLine (line : Nat → Nat) (waiting : List BracketAt) (offset : Nat) (c : Cell) :
    bracketStep (waiting.map (BracketAt.onLine line)) (line offset) c =
      ((misfitStep waiting offset c).1.map (Misfit.onLine line), (misfitStep waiting offset c).2.map
        (BracketAt.onLine line)) := by
  rw [bracketStep, misfitStep]
  split
  · cases Bracket.ofOpener? c.char with
    | some kind => rfl
    | none =>
      cases Bracket.ofCloser? c.char with
      | none => rfl
      | some kind =>
        cases waiting with
        | nil => rfl
        | cons top below =>
          by_cases hk : top.kind = kind
          · simp [BracketAt.onLine, hk]
          · simp [BracketAt.onLine, Misfit.onLine, hk]
  · rfl

/-- The stack that counts lines is the stack of offsets, each on its line. -/
theorem bracketsFrom_onLine (waiting : List BracketAt) {a cs : List Cell} (h : cells t = a ++ cs) :
    bracketsFrom (waiting.map (BracketAt.onLine (Text.lineAt t))) (Text.lineAt t a.length) cs =
      ⟨(misfitsFrom waiting a.length cs).1.map (Misfit.onLine (Text.lineAt t)),
        ((misfitsFrom waiting a.length cs).2.map (BracketAt.onLine (Text.lineAt t))).reverse⟩ := by
  induction cs generalizing waiting a with
  | nil => rfl
  | cons c cs ih =>
    have hcell : (cells t)[a.length]? = some c := by
      rw [h, List.getElem?_append_right (Nat.le_refl _), Nat.sub_self]
      rfl
    have hline := Text.lineAt_succ (step_of_cell hcell).1
    have hrest : cells t = (a ++ [c]) ++ cs := by
      rw [h, List.append_assoc, List.singleton_append]
    have hlen : (a ++ [c]).length = a.length + 1 := List.length_append
    rw [bracketsFrom_cons, bracketStep_onLine, ← hline, ← hlen, ih _ hrest, hlen, misfitsFrom]
    simp [BracketReport.behind]

theorem matchBrackets_onLine (t : Text) :
    (matchBrackets t).issues = (misfits t).map (Misfit.onLine (Text.lineAt t)) ∧
    (matchBrackets t).unclosed = (neverClosed t).map (BracketAt.onLine (Text.lineAt t)) := by
  have hrun := @bracketsFrom_onLine t [] [] (cells t) rfl
  have hreport : matchBrackets t = ⟨(misfits t).map (Misfit.onLine (Text.lineAt t)),
      ((misfitsFrom [] 0 (cells t)).2.map (BracketAt.onLine (Text.lineAt t))).reverse⟩ := hrun
  rw [hreport, neverClosed, List.map_reverse]
  exact ⟨rfl, rfl⟩

def OpenerAt (t : Text) (b : BracketAt) : Prop :=
  (cells t)[b.offset]? = some (codeCell b.kind.opener)

structure MisfitAt (t : Text) (m : Misfit) : Prop where
  closer : (cells t)[m.closer.offset]? = some (codeCell m.closer.kind.closer)
  met : ∀ b, m.met = some b → OpenerAt t b ∧ b.offset < m.closer.offset ∧ b.kind ≠ m.closer.kind

theorem misfitStep_at {waiting : List BracketAt} {i : Nat} {c : Cell} (h : (cells t)[i]? = some c)
    (hw : ∀ b ∈ waiting, OpenerAt t b ∧ b.offset < i) :
    (∀ m ∈ (misfitStep waiting i c).1, MisfitAt t m) ∧
      ∀ b ∈ (misfitStep waiting i c).2, OpenerAt t b ∧ b.offset < i + 1 := by
  have hkeep : ∀ b ∈ waiting, OpenerAt t b ∧ b.offset < i + 1 :=
    fun b hb => ⟨(hw b hb).1, Nat.lt_succ_of_lt (hw b hb).2⟩
  rw [misfitStep]
  split
  case isFalse => exact ⟨List.forall_mem_nil _, hkeep⟩
  case isTrue hcode =>
    have hcell : c = codeCell c.char := eq_codeCell (List.mem_of_getElem? h) (beq_iff_eq.mp hcode)
    cases ho : Bracket.ofOpener? c.char with
    | some kind =>
      refine ⟨List.forall_mem_nil _, List.forall_mem_cons.mpr ⟨⟨?_, Nat.lt_succ_self i⟩, hkeep⟩⟩
      rw [OpenerAt, h, ← Bracket.ofOpener?_eq_some.mp ho, ← hcell]
    | none =>
      cases hc : Bracket.ofCloser? c.char with
      | none => exact ⟨List.forall_mem_nil _, hkeep⟩
      | some kind =>
        refine ⟨fun m hm => ?_, fun b hb => hkeep b (List.mem_of_mem_tail hb)⟩
        dsimp only at hm
        split at hm
        · cases hm
        · next hfits =>
          cases List.mem_singleton.mp hm
          refine ⟨?_, fun b hb => ?_⟩
          · rw [h, ← Bracket.ofCloser?_eq_some.mp hc, ← hcell]
          · have hmet : waiting.head? = some b := hb
            obtain ⟨hopener, hlt⟩ := hw b (List.mem_of_head? hmet)
            refine ⟨hopener, hlt, fun e => hfits ?_⟩
            rw [hmet]
            exact congrArg some e

theorem misfitsFrom_at {waiting : List BracketAt} {a cs : List Cell} (h : cells t = a ++ cs)
    (hw : ∀ b ∈ waiting, OpenerAt t b ∧ b.offset < a.length) :
    (∀ m ∈ (misfitsFrom waiting a.length cs).1, MisfitAt t m) ∧
    ∀ b ∈ (misfitsFrom waiting a.length cs).2, OpenerAt t b := by
  induction cs generalizing waiting a with
  | nil => exact ⟨List.forall_mem_nil _, fun b hb => (hw b hb).1⟩
  | cons c cs ih =>
    have hcell : (cells t)[a.length]? = some c := by
      rw [h, List.getElem?_append_right (Nat.le_refl _), Nat.sub_self]
      rfl
    have hrest : cells t = (a ++ [c]) ++ cs := by
      rw [h, List.append_assoc, List.singleton_append]
    obtain ⟨hfirst, hleft⟩ := misfitStep_at hcell hw
    have hlen : (a ++ [c]).length = a.length + 1 := List.length_append
    have hih := @ih (misfitStep waiting a.length c).2 (a ++ [c]) hrest (by rw [hlen]; exact hleft)
    rw [hlen] at hih
    refine ⟨fun m hm => ?_, hih.2⟩
    rcases List.mem_append.mp hm with hm | hm
    · exact hfirst m hm
    · exact hih.1 m hm

/-- The offsets on which the stack runs are those of brackets in code. -/
theorem misfits_at (t : Text) :
    (∀ m ∈ misfits t, MisfitAt t m) ∧ ∀ b ∈ neverClosed t, OpenerAt t b := by
  have hrun := @misfitsFrom_at t [] [] (cells t) rfl (List.forall_mem_nil _)
  exact ⟨hrun.1, fun b hb => hrun.2 b (List.mem_reverse.mp hb)⟩

end Brackets
end PineTools
