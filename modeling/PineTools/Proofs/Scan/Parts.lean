import PineTools.Pattern.Basic
import PineTools.Proofs.Scan.Reading

/-! Parts of a text and the cells they show. Which character follows a part matters little: only a
slash, a star or a backslash at its end looks ahead. What a cell shows tells in turn where the
scanner stood when it read it. -/
namespace PineTools

theorem cellsUpTo_concat (m : Mode) (ahead : Option Char) (a : Text) (x : Char) :
    cellsUpTo m ahead (a ++ [x]) = cellsUpTo m (some x) a ++
      [((m.after (some x) a).step x ahead).1] :=
  cellsUpTo_append m ahead a [x]

theorem after_concat (m : Mode) (ahead : Option Char) (a : Text) (x : Char) :
    m.after ahead (a ++ [x]) = ((m.after (some x) a).step x ahead).2 :=
  Mode.after_append m ahead a [x]

def ReadsAlike (m : Mode) (t : Text) (ahead ahead' : Option Char) : Prop :=
  cellsUpTo m ahead t = cellsUpTo m ahead' t ∧ m.after ahead t = m.after ahead' t

theorem readsAlike_concat {m : Mode} {a : Text} {x : Char} {ahead ahead' : Option Char}
    (h : (m.after (some x) a).step x ahead = (m.after (some x) a).step x ahead') :
    ReadsAlike m (a ++ [x]) ahead ahead' := by
  rw [ReadsAlike, cellsUpTo_concat, cellsUpTo_concat, after_concat, after_concat, h]
  exact ⟨rfl, rfl⟩

theorem readsAlike_cons {m : Mode} {c : Char} {t : Text} {ahead ahead' : Option Char}
    (hstep : m.step c (t.head?.or ahead) = m.step c (t.head?.or ahead'))
    (h : ReadsAlike (m.step c (t.head?.or ahead')).2 t ahead ahead') :
    ReadsAlike m (c :: t) ahead ahead' := by
  rw [ReadsAlike, cellsUpTo, cellsUpTo, Mode.after, Mode.after, hstep, h.1, h.2]
  exact ⟨rfl, rfl⟩

theorem Cell.masked_of_code {c : Cell} (h : c.region = .code) : c.masked = c.char := by
  rw [Cell.masked, h]
  split <;> rfl

/-- Newlines stay newlines on the mask, and nothing else shows one. -/
theorem char_of_newline {c : Cell} (h : c.masked = '\n') : c.char = '\n' := by
  refine Classical.byContradiction fun hn => ?_
  rw [Cell.masked, if_neg hn] at h
  have hfiller : Cell.filler ≠ '\n' := by decide
  have hspace : ' ' ≠ '\n' := by decide
  split at h
  · exact hn h
  · exact hspace h
  · exact hspace h
  · split at h
    · exact hn h
    · exact hfiller h

theorem Quote.ofChar?_eq_some {c : Char} {q : Quote} (h : Quote.ofChar? c = some q) :
    c = q.char := by
  rw [Quote.ofChar?] at h
  split at h
  · cases h; assumption
  · split at h
    · cases h; assumption
    · cases h

/-- A cell that leaves code shows a blank or a quote, so a run of other characters stays in code. -/
theorem code_of_shown {p : Char → Bool} (blank : p ' ' = false)
    (quote : ∀ q : Quote, p q.char = false) (b : Bool) {t : Text} (ht : Text.OneLine t) (n : Nat)
    (h : ∀ g ∈ (cellsFrom (.code b) t).take n, p (Glyph.seen g) = true) :
    ∀ g ∈ (cellsFrom (.code b) t).take n, g.region = .code := by
  induction t generalizing b n with
  | nil => simp [cellsFrom]
  | cons c cs ih =>
    have hc : c ≠ '\n' := ht.head
    cases n with
    | zero => simp
    | succ n =>
      rw [cellsFrom, List.take_succ_cons, Mode.step, List.forall_mem_cons] at h ⊢
      obtain ⟨first, others⟩ := h
      obtain ⟨-, -, e⟩ | ⟨-, -, e⟩ | ⟨q, -, hq, e⟩ | ⟨-, -, e⟩ := Mode.stepCode_cases b c cs.head?
      · rw [e] at first
        simp [Glyph.seen, Cell.masked, hc, blank] at first
      · rw [e] at first
        simp [Glyph.seen, Cell.masked, hc, blank] at first
      · rw [e] at first
        simp [Glyph.seen, Cell.masked, Quote.ofChar?_eq_some hq, quote] at first
      · rw [e] at others ⊢
        exact ⟨rfl, ih _ ht.tail n others⟩

theorem after_of_code (b : Bool) (ahead : Option Char) {t : Text} (hne : t ≠ [])
    (h : ∀ g ∈ cellsUpTo (.code b) ahead t, g.region = .code) :
    (Mode.code b).after ahead t = .code (t.getLast? == some '\\') := by
  induction t generalizing b with
  | nil => exact absurd rfl hne
  | cons c cs ih =>
    rw [cellsUpTo, Mode.step, List.forall_mem_cons] at h
    rw [Mode.after, Mode.step]
    obtain ⟨-, -, e⟩ | ⟨-, -, e⟩ | ⟨q, -, hq, e⟩ | ⟨-, -, e⟩ :=
      Mode.stepCode_cases b c (cs.head?.or ahead)
    · rw [e] at h
      cases h.1
    · rw [e] at h
      cases h.1
    · rw [e] at h
      cases h.1
    · rw [e] at h ⊢
      cases cs with
      | nil => simp [Mode.after]
      | cons d ds =>
        rw [ih _ (List.cons_ne_nil d ds) h.2, List.getLast?_cons_cons]

theorem cellsFrom_take (m : Mode) (t : Text) (n : Nat) :
    (cellsFrom m t).take n = cellsUpTo m (t.drop n).head? (t.take n) := by
  have hlen : (cellsUpTo m (t.drop n).head? (t.take n)).length = min n t.length := by
    rw [← List.length_map Cell.char, cellsUpTo_chars, List.length_take]
  have e : cellsFrom m t = cellsUpTo m (t.drop n).head? (t.take n) ++
      cellsFrom (m.after (t.drop n).head? (t.take n)) (t.drop n) := by
    rw [← cellsFrom_append, List.take_append_drop]
  rcases Nat.le_total n t.length with hn | hn
  · rw [e, List.take_left' (by rw [hlen, Nat.min_eq_left hn])]
  · rw [List.take_of_length_le (by rw [cellsFrom_length]; exact hn), e, List.drop_eq_nil_of_le hn]
    exact List.append_nil _

theorem cellsFrom_drop (m : Mode) (t : Text) (n : Nat) :
    (cellsFrom m t).drop n = cellsFrom (m.after (t.drop n).head? (t.take n)) (t.drop n) := by
  have e : cellsFrom m t = (cellsFrom m t).take n ++ cellsFrom (m.after (t.drop n).head? (t.take n))
      (t.drop n) := by
    rw [cellsFrom_take, ← cellsFrom_append, List.take_append_drop]
  exact List.append_cancel_left ((List.take_append_drop n _).trans e)

theorem step_delimiter {m : Mode} {c : Char} {ahead : Option Char}
    (h : (m.step c ahead).1.delimiter = true) :
    ∃ q : Quote, c = q.char := by
  cases m with
  | code b =>
    rw [Mode.step] at h
    obtain ⟨-, -, e⟩ | ⟨-, -, e⟩ | ⟨q, -, hq, e⟩ | ⟨-, -, e⟩ := Mode.stepCode_cases b c ahead
    · rw [e] at h; cases h
    · rw [e] at h; cases h
    · exact ⟨q, Quote.ofChar?_eq_some hq⟩
    · rw [e] at h; cases h
  | literal q =>
    rw [Mode.step] at h
    obtain ⟨-, e⟩ | ⟨hq, e⟩ | ⟨-, -, e⟩ | ⟨-, -, -, e⟩ := Mode.stepLiteral_cases q c ahead
    · rw [e] at h; cases h
    · exact ⟨q, hq⟩
    · rw [e] at h; cases h
    · rw [e] at h; cases h
  | line =>
    rw [Mode.step] at h
    split at h <;> cases h
  | block =>
    rw [Mode.step] at h
    split at h <;> cases h
  | lineSecond | blockSecond | blockLast | escaped q => cases h

/-- A character that is read as code and does not end a line was met in code. -/
theorem mode_of_code {m : Mode} {c : Char} {ahead : Option Char} (hc : c ≠ '\n')
    (h : (m.step c ahead).1.region = .code) : ∃ b, m = .code b := by
  cases m with
  | code b => exact ⟨b, rfl⟩
  | literal q =>
    rw [Mode.step] at h
    obtain ⟨e, -⟩ | ⟨-, e⟩ | ⟨-, -, e⟩ | ⟨-, -, -, e⟩ := Mode.stepLiteral_cases q c ahead
    · exact absurd e hc
    · rw [e] at h; cases h
    · rw [e] at h; cases h
    · rw [e] at h; cases h
  | line =>
    rw [Mode.step, if_neg hc] at h
    cases h
  | block =>
    rw [Mode.step] at h
    split at h <;> cases h
  | lineSecond | blockSecond | blockLast | escaped q => cases h

theorem step_eq_of_code {m : Mode} {c : Char} {ahead : Option Char}
    (h : (m.step c ahead).1.region = .code) :
    m.step c ahead = (⟨c, .code, false⟩, .code (c == '\\')) := by
  cases m with
  | code b =>
    rw [Mode.step] at h ⊢
    obtain ⟨-, -, e⟩ | ⟨-, -, e⟩ | ⟨q, -, -, e⟩ | ⟨-, -, e⟩ := Mode.stepCode_cases b c ahead
    · rw [e] at h; cases h
    · rw [e] at h; cases h
    · rw [e] at h; cases h
    · exact e
  | literal q =>
    rw [Mode.step] at h ⊢
    obtain ⟨rfl, e⟩ | ⟨-, e⟩ | ⟨-, -, e⟩ | ⟨-, -, -, e⟩ := Mode.stepLiteral_cases q c ahead
    · exact e
    · rw [e] at h; cases h
    · rw [e] at h; cases h
    · rw [e] at h; cases h
  | line =>
    by_cases hc : c = '\n'
    · subst hc
      rfl
    · rw [Mode.step, if_neg hc] at h
      cases h
  | block =>
    rw [Mode.step] at h
    split at h <;> cases h
  | lineSecond | blockSecond | blockLast | escaped q => cases h

theorem step_block {c : Char} (hc : c ≠ '*') (ahead : Option Char) :
    Mode.block.step c ahead = (⟨c, .blockComment, false⟩, .block) := if_neg fun h => hc h.1

theorem after_block_comment (ahead : Option Char) {u : Text} (hu : '*' ∉ u) :
    Mode.block.after ahead u = .block := by
  induction u with
  | nil => rfl
  | cons c u ih =>
    rw [Mode.after, step_block (List.ne_of_not_mem_cons hu).symm]
    exact ih (List.not_mem_of_not_mem_cons hu)

namespace Mode

def inCode : Mode → Bool
  | code _ => true
  | _ => false

theorem exists_code_of_inCode {m : Mode} (h : m.inCode = true) : ∃ b, m = .code b := by
  cases m with
  | code b => exact ⟨b, rfl⟩
  | _ => cases h

def inComment : Mode → Bool
  | line | lineSecond | block | blockSecond | blockLast => true
  | _ => false

/-- A comment or literal that goes on holds the character just read. -/
theorem region_of_next (m : Mode) (c : Char) (ahead : Option Char) :
    ((m.step c ahead).2.inComment = true → (m.step c ahead).1.region.isComment = true) ∧
      ((m.step c ahead).2.inLiteral = true → (m.step c ahead).1.region.isLiteral = true) := by
  cases m with
  | code b =>
    rw [step]
    obtain ⟨-, -, e⟩ | ⟨-, -, e⟩ | ⟨q, -, -, e⟩ | ⟨-, -, e⟩ :=
      stepCode_cases b c ahead <;> rw [e] <;>
      simp [inComment, inLiteral, Region.isComment, Region.isLiteral]
  | literal q =>
    rw [step]
    obtain ⟨-, e⟩ | ⟨-, e⟩ | ⟨-, -, e⟩ | ⟨-, -, -, e⟩ := stepLiteral_cases q c ahead <;> rw [e] <;>
      simp [inComment, inLiteral, Region.isLiteral]
  | line =>
    rw [step]
    split <;> simp [inComment, inLiteral, Region.isComment]
  | block =>
    rw [step]
    split <;> simp [inLiteral, Region.isComment]
  | lineSecond | blockSecond | blockLast | escaped q =>
    simp [step, inComment, inLiteral, Region.isComment, Region.isLiteral]

/-- A comment or literal that is going on holds the next character, unless its line ends there. -/
theorem region_of_mode (m : Mode) {c : Char} (hc : c ≠ '\n') (ahead : Option Char) :
    (m.inComment = true → (m.step c ahead).1.region.isComment = true) ∧
      (m.inLiteral = true → (m.step c ahead).1.region.isLiteral = true) := by
  cases m with
  | code b => simp [inComment, inLiteral]
  | literal q =>
    rw [step]
    obtain ⟨e, -⟩ | ⟨-, e⟩ | ⟨-, -, e⟩ | ⟨-, -, -, e⟩ := stepLiteral_cases q c ahead
    · exact absurd e hc
    all_goals rw [e]; simp [inComment, Region.isLiteral]
  | line => simp [step, hc, inLiteral, Region.isComment]
  | block =>
    rw [step]
    split <;> simp [inLiteral, Region.isComment]
  | lineSecond | blockSecond | blockLast | escaped q =>
    simp [step, inComment, inLiteral, Region.isComment, Region.isLiteral]

theorem inCode_of_not {m : Mode} (hc : m.inComment = false) (hl : m.inLiteral = false) :
    ∃ b, m = .code b := by
  cases m with
  | code b => exact ⟨b, rfl⟩
  | line | lineSecond | block | blockSecond | blockLast => cases hc
  | literal q | escaped q => cases hl

/-- Between two characters that no comment and no literal holds together the scanner stands in code.
-/
theorem code_between {m : Mode} {c d : Char} {ahead : Option Char} (hd : d ≠ '\n')
    (hcomment : (m.step c (some d)).1.region.isComment = true →
      ((m.step c (some d)).2.step d ahead).1.region.isComment = false)
    (hliteral : (m.step c (some d)).1.region.isLiteral = true →
      ((m.step c (some d)).2.step d ahead).1.region.isLiteral = false) :
        ∃ b, (m.step c (some d)).2 = .code b := by
  have hnext := m.region_of_next c (some d)
  have hhere := (m.step c (some d)).2.region_of_mode hd ahead
  apply inCode_of_not
  · cases h : (m.step c (some d)).2.inComment with
    | false => rfl
    | true =>
      have := hcomment (hnext.1 h)
      rw [hhere.1 h] at this
      cases this
  · cases h : (m.step c (some d)).2.inLiteral with
    | false => rfl
    | true =>
      have := hliteral (hnext.2 h)
      rw [hhere.2 h] at this
      cases this

/-- Only a backslash in a literal takes the next character with it, and only one on the same line.
-/
theorem next_escaped {m : Mode} {c : Char} {ahead : Option Char} {q : Quote}
    (h : (m.step c ahead).2 = .escaped q) :
    c = '\\' ∧ ahead.any (· ≠ '\n') = true := by
  cases m with
  | code b =>
    rw [step] at h
    obtain ⟨-, -, e⟩ | ⟨-, -, e⟩ | ⟨q', -, -, e⟩ | ⟨-, -, e⟩ := stepCode_cases b c ahead <;>
      rw [e] at h <;> cases h
  | literal q' =>
    rw [step] at h
    obtain ⟨-, e⟩ | ⟨-, e⟩ | ⟨hc, hahead, -⟩ | ⟨-, -, -, e⟩ := stepLiteral_cases q' c ahead
    · rw [e] at h; cases h
    · rw [e] at h; cases h
    · exact ⟨hc, hahead⟩
    · rw [e] at h; cases h
  | line =>
    rw [step] at h
    split at h <;> cases h
  | block =>
    rw [step] at h
    split at h <;> cases h
  | lineSecond | blockSecond | blockLast | escaped q' => cases h

end Mode

end PineTools
