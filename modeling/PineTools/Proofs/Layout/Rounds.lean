import Mathlib.Logic.Function.Iterate
import PineTools.Proofs.Layout.RawTokens
import PineTools.Proofs.Layout.Stages
import PineTools.Proofs.Scan.Rewriting

/-! The tokenizer as a loop that reads a line round by round. A round looks at the characters of the
line, and what it matches may have to be cut back; still every round goes forward, and the rounds
end with the tokens of the line, in which no character is missing. -/
namespace PineTools.Layout

open Reader

def IsGap (c : Cell) : Prop := c.isCode = true ∧ Text.isBlank c.char = true

/-- How far a match of the given length is cut back, so that it ends in code. -/
def cutBack (cells : List Cell) : Nat → Nat
  | n + 2 => if cells[n + 1]?.any Cell.isCode then n + 2 else cutBack cells (n + 1)
  | n => n

/-- The kind of the token that one round reads, and all its cells. The patterns of code run over the
characters, whatever they lie in, and what they match is cut back. -/
def roundToken (c : Cell) (rest : List Cell) : TokenKind × Nat :=
  match c.region with
  | .lineComment | .blockComment => (.comment, commentLength c.region 1 c.char rest + 1)
  | .literal _ => (.literal, literalLength rest + 1)
  | .code =>
    let (kind, size) := codeToken c.asCode (rest.map Cell.asCode)
    (kind, cutBack (c :: rest) size)

/-- A line that is being read: the tokens so far, the blanks behind them, and what is left. -/
structure Reading where
  done : List Token
  gap : Text
  rest : List Cell
  deriving DecidableEq, Repr

namespace Reading

def start (line : List Cell) : Reading := ⟨[], [], line⟩

/-- One round of the loop: it reads a blank or a token. A token without cells would leave it where
it is. -/
def round : Reading → Reading
  | ⟨done, gap, []⟩ => ⟨done, gap, []⟩
  | ⟨done, gap, c :: cs⟩ =>
    if c.isCode && Text.isBlank c.char then ⟨done, gap ++ [c.char], cs⟩
    else
      let (kind, size) := roundToken c cs
      ⟨done ++ [{ kind, text := ((c :: cs).take size).map Cell.char, gap }], [],
        (c :: cs).drop size⟩

end Reading

/-- A token with the cells that its gap and its text were read from. -/
structure Piece where
  kind : TokenKind
  gap : List Cell
  body : List Cell

namespace Piece

def cells (p : Piece) : List Cell := p.gap ++ p.body

def token (p : Piece) : Token :=
  { kind := p.kind, text := p.body.map Cell.char, gap := p.gap.map Cell.char }

/-- The kind tells where all cells of the text lie. -/
def Unmixed (p : Piece) : Prop :=
  match p.kind with
  | .comment => ∀ c ∈ p.body, c.region.isComment = true
  | .literal => ∀ c ∈ p.body, c.region.isLiteral = true
  | _ => ∀ c ∈ p.body, c.isCode = true

structure Sound (p : Piece) : Prop where
  nonempty : p.body ≠ []
  gap : ∀ c ∈ p.gap, IsGap c
  unmixed : p.Unmixed

end Piece

theorem cutBack_eq {cells : List Cell} {n : Nat} (h : ∀ g ∈ cells.take n, g.region = .code)
    (hn : n ≤ cells.length) :
    cutBack cells n = n := by
  match n with
  | 0 | 1 => rfl
  | n + 2 =>
    have hlast : cells[n + 1]?.any Cell.isCode = true := by
      rw [List.getElem?_eq_getElem (by omega), Option.any_some]
      exact beq_iff_eq.mpr (h _ (List.mem_take_iff_getElem.mpr ⟨n + 1, by omega, rfl⟩))
    rw [cutBack, if_pos hlast]

/-- The cells are the end of a line at which a token may start: they are read from code, or inside a
block comment that has been cut after an inner end. -/
def Resumes (cells : List Cell) : Prop :=
  ∃ m t, (m = .block ∨ ∃ b, m = .code b) ∧ Text.OneLine t ∧ cells = cellsFrom m t

namespace Resumes

variable {cell : Cell} {cells : List Cell}

theorem code (h : Resumes (cell :: cells)) (hcell : cell.region = .code) :
    ∃ b t, Text.OneLine t ∧ cellsFrom (.code b) t = cell :: cells := by
  obtain ⟨m, t, -, ht, e⟩ := h
  cases t with
  | nil => cases e
  | cons c cs =>
    obtain ⟨rfl, -⟩ := List.cons.inj (e.trans (cellsFrom.eq_2 ..))
    obtain ⟨b, rfl⟩ : ∃ b, m = .code b := mode_of_code ht.head hcell
    exact ⟨b, c :: cs, ht, e.symm⟩

theorem behindBlank (h : Resumes (cell :: cells)) (hblank : IsGap cell) : Resumes cells := by
  obtain ⟨b, t, ht, e⟩ := h.code (beq_iff_eq.mp hblank.1)
  cases t with
  | nil => cases e
  | cons c cs =>
    have hc : cell.char = c := by
      obtain ⟨rfl, -⟩ := List.cons.inj (e.symm.trans (cellsFrom.eq_2 ..))
      exact Mode.step_char ..
    rw [cellsFrom_code_white b (Text.isSpace_of_isBlank (hc ▸ hblank.2))] at e
    exact ⟨.code false, cs, .inr ⟨false, rfl⟩, ht.tail, (List.cons.inj e).2.symm⟩

theorem behindToken (h : Resumes (cell :: cells)) :
    Resumes (cells.drop (tokenAt cell cells).2) := by
  obtain ⟨m, t, hm, ht, e⟩ := h
  cases t with
  | nil => cases e
  | cons c cs =>
    obtain ⟨rfl, rfl⟩ := List.cons.inj (e.trans (cellsFrom.eq_2 ..))
    generalize htoken : tokenAt (m.step c cs.head?).1 (cellsFrom (m.step c cs.head?).2 cs) = token
    have hdrop : Text.OneLine (cs.drop token.2) := oneLine_drop ht.tail _
    obtain ⟨-, hnil | cut⟩ := tokenAt_cut hm ht htoken
    · refine ⟨.block, [], .inl rfl, List.not_mem_nil, ?_⟩
      rw [cellsFrom_rest, hnil]
      rfl
    · refine ⟨_, cs.drop token.2, ?_, hdrop, cellsFrom_rest m c cs token.2⟩
      obtain ⟨b, hb, -⟩ | ⟨-, hblock⟩ := cut.next
      · exact .inr ⟨b, hb⟩
      · exact .inl hblock

theorem roundToken_eq (h : Resumes (cell :: cells)) :
    roundToken cell cells = ((tokenAt cell cells).1, (tokenAt cell cells).2 + 1) := by
  cases hregion : cell.region with
  | lineComment | blockComment | literal q => simp only [roundToken, tokenAt, hregion]
  | code =>
    obtain ⟨b, t, ht, e⟩ := h.code hregion
    obtain ⟨hcode, -⟩ := codeToken_shape b ht e hregion
    obtain ⟨n, hn⟩ := Nat.exists_eq_succ_of_ne_zero (codeToken_pos cell cells)
    simp only [roundToken, tokenAt, hregion, codeToken_asCode ht e hregion,
      cutBack_eq hcode (codeToken_le cell cells)]
    simp only [hn, Nat.succ_eq_add_one, Nat.add_sub_cancel]

theorem unmixed (h : Resumes (cell :: cells)) (gap : List Cell) :
    Piece.Unmixed ⟨(tokenAt cell cells).1, gap, cell :: cells.take (tokenAt cell cells).2⟩ := by
  have comment {region : Region} (hcomment : region.isComment = true)
    (hregion : cell.region = region) :
      ∀ g ∈ cell :: cells.take (commentLength region 1 cell.char cells),
      g.region.isComment = true := by
    refine List.forall_mem_cons.mpr ⟨hregion ▸ hcomment, fun g hg => ?_⟩
    rw [commentLength_region region 1 cell.char cells g hg, hcomment]
  rw [tokenAt]
  cases hregion : cell.region with
  | lineComment => exact comment rfl hregion
  | blockComment => exact comment rfl hregion
  | literal q => exact List.forall_mem_cons.mpr ⟨by rw [hregion]; rfl, literalLength_region cells⟩
  | code =>
    obtain ⟨b, t, ht, e⟩ := h.code hregion
    obtain ⟨hcode, -⟩ := codeToken_shape b ht e hregion
    obtain ⟨hcomment, hliteral⟩ := codeToken_kind cell cells
    obtain ⟨n, hn⟩ := Nat.exists_eq_succ_of_ne_zero (codeToken_pos cell cells)
    generalize codeToken cell cells = token at hcode hcomment hliteral hn
    obtain ⟨kind, size⟩ := token
    subst hn
    have hall : ∀ g ∈ cell :: cells.take n, g.isCode = true :=
      fun g hg => beq_iff_eq.mpr (hcode g hg)
    cases kind with
    | comment => exact absurd rfl hcomment
    | literal => exact absurd rfl hliteral
    | name | number | operator | opener | closer | comma | dot | other => exact hall

end Resumes

namespace Reading

/-- What has been read of a line: the cells of the tokens so far, blanks of code as the gap, and an
end of the line whose tokens are those still missing. -/
structure Sound (line : List Cell) (s : Reading) (pieces : List Piece) (blanks : List Cell) :
    Prop where
  cells : line = pieces.flatMap Piece.cells ++ (blanks ++ s.rest)
  done : s.done = pieces.map Piece.token
  gap : s.gap = blanks.map Cell.char
  pieces : ∀ p ∈ pieces, p.Sound
  blanks : ∀ c ∈ blanks, IsGap c
  rest : Resumes s.rest
  tokens : tokens line = s.done ++ tokensAfter s.gap s.rest

variable {line : List Cell} {pieces : List Piece} {blanks : List Cell}

theorem sound_start (h : Resumes line) : (start line).Sound line [] [] :=
  ⟨rfl, rfl, rfl, fun _ hp => absurd hp List.not_mem_nil, fun _ hc => absurd hc List.not_mem_nil, h,
    rfl⟩

variable {done : List Token} {gap : Text} {cell : Cell} {cells : List Cell}
  (h : Sound line ⟨done, gap, cell :: cells⟩ pieces blanks)
include h

theorem Sound.readBlank (hblank : IsGap cell) :
    Sound line ⟨done, gap ++ [cell.char], cells⟩ pieces (blanks ++ [cell]) where
  cells := by rw [h.cells, List.append_assoc blanks, List.singleton_append]
  done := h.done
  gap := by rw [List.map_append, ← h.gap, List.map_singleton]
  pieces := h.pieces
  blanks := List.forall_mem_append.mpr ⟨h.blanks, List.forall_mem_singleton.mpr hblank⟩
  rest := h.rest.behindBlank hblank
  tokens := by rw [h.tokens, tokensAfter_blank _ (Bool.and_eq_true_iff.mpr hblank)]

theorem Sound.readToken (hblank : (cell.isCode && Text.isBlank cell.char) = false)
    {kind : TokenKind} {n : Nat} (e : tokenAt cell cells = (kind, n)) :
    Sound line ⟨done ++ [{ kind, text := (cell :: cells.take n).map Cell.char, gap }], [],
      cells.drop n⟩
      (pieces ++ [⟨kind, blanks, cell :: cells.take n⟩]) [] where
  cells := by
    rw [h.cells, List.flatMap_append, List.append_assoc]
    simp [Piece.cells]
  done := by
    rw [List.map_append, ← h.done, List.map_singleton, Piece.token, ← h.gap]
  gap := rfl
  pieces := by
    have hunmixed := h.rest.unmixed blanks
    rw [e] at hunmixed
    exact List.forall_mem_append.mpr
      ⟨h.pieces, List.forall_mem_singleton.mpr ⟨List.cons_ne_nil _ _, h.blanks, hunmixed⟩⟩
  blanks _ hc := absurd hc List.not_mem_nil
  rest := by
    have hrest := h.rest.behindToken
    rwa [e] at hrest
  tokens := by
    rw [h.tokens, tokensAfter_token _ hblank e, List.append_assoc]
    rfl

/-- A round keeps what is known of a reading, and leaves less to read. -/
theorem Sound.round :
    (∃ pieces blanks, Sound line (round ⟨done, gap, cell :: cells⟩) pieces blanks) ∧
      (round ⟨done, gap, cell :: cells⟩).rest.length ≤ cells.length := by
  cases hblank : cell.isCode && Text.isBlank cell.char with
  | true =>
    rw [Reading.round, if_pos hblank]
    exact ⟨⟨_, _, h.readBlank (Bool.and_eq_true_iff.mp hblank)⟩, Nat.le_refl _⟩
  | false =>
    obtain ⟨kind, n, e⟩ : ∃ kind n, tokenAt cell cells = (kind, n) := ⟨_, _, rfl⟩
    rw [Reading.round, hblank, if_neg Bool.false_ne_true, h.rest.roundToken_eq, e]
    exact ⟨⟨_, _, h.readToken hblank e⟩, (List.drop_sublist n cells).length_le⟩

omit h

/-- When nothing is left, further rounds change nothing. -/
theorem iterate_finished {s : Reading} {n k : Nat} (h : Reading.round^[n] s = ⟨done, gap, []⟩)
    (hn : n ≤ k) :
    Reading.round^[k] s = ⟨done, gap, []⟩ := by
  rw [← Nat.sub_add_cancel hn, Function.iterate_add_apply, h]
  exact Function.iterate_fixed rfl _

/-- The rounds reach the end of the line, of which each reads at least one cell. -/
theorem Sound.run {s : Reading} (h : s.Sound line pieces blanks) :
    ∃ n ≤ s.rest.length, ∃ pieces blanks, (Reading.round^[n] s).rest = [] ∧
    (Reading.round^[n] s).Sound line pieces blanks := by
  induction hlen : s.rest.length using Nat.strongRecOn generalizing s pieces blanks with
  | ind len ih =>
    subst hlen
    obtain ⟨done, gap, rest⟩ := s
    cases rest with
    | nil => exact ⟨0, Nat.le_refl 0, pieces, blanks, rfl, h⟩
    | cons cell cells =>
      obtain ⟨⟨pieces', blanks', h'⟩, hlen⟩ := h.round
      obtain ⟨n, hn, hrun⟩ := ih _ (Nat.lt_succ_of_le hlen) h' rfl
      exact ⟨n + 1, Nat.succ_le_succ (Nat.le_trans hn hlen), hrun⟩

end Reading

theorem flatMap_token (pieces : List Piece) :
    (pieces.map Piece.token).flatMap (fun token => token.gap ++ token.text) =
      (pieces.flatMap Piece.cells).map Cell.char := by
  induction pieces with
  | nil => rfl
  | cons p ps ih =>
    rw [List.map_cons, List.flatMap_cons, ih, List.flatMap_cons, List.map_append, Piece.cells,
      List.map_append]
    rfl

/-- The tokenizer ends and loses nothing. On a line that does not continue a block comment nothing
is left after as many rounds as there are characters, and what has been read are the tokens and the
blanks behind them. The tokens cover the line without these blanks, none of them is empty or lies
both in code and outside of it, and between them there are only blanks of code. -/
theorem tokens_lossless {t : Text} {line : ScriptLine} (hline : line ∈ scriptLines t)
    (hcode : line.inComment = false) :
    let content := line.cells.drop (leadingBlanks line.text).length
    ∃ (pieces : List Piece) (trailing : List Cell),
      Reading.round^[content.length] (.start content) =
        ⟨tokens content, trailing.map Cell.char, []⟩ ∧
      tokens content = pieces.map Piece.token ∧ content = pieces.flatMap Piece.cells ++ trailing ∧
      (∀ p ∈ pieces, p.Sound) ∧ (∀ c ∈ trailing, IsGap c) ∧
      (tokens content).flatMap (fun token => token.gap ++ token.text) ++ trailing.map Cell.char =
        line.text.dropWhile Text.isBlank := by
  intro content
  have hread := isRead_of_mem_scriptLines hline
  have hcontent : content = cellsFrom (.code false) (line.text.dropWhile Text.isBlank) := by
    rw [← cells_behind_blanks line.text]
    exact congrArg (List.drop _) (hread.cells_eq.trans (by rw [hcode]; rfl))
  have hresumes : Resumes content :=
    ⟨.code false, _, .inr ⟨false, rfl⟩, oneLine_dropWhile hread.2 _, hcontent⟩
  obtain ⟨n, hn, pieces, trailing, hrest, h⟩ := (Reading.sound_start hresumes).run
  have htokens := h.tokens
  have hcells := h.cells
  rw [hrest, tokensAfter, List.append_nil] at htokens
  rw [hrest, List.append_nil] at hcells
  refine ⟨pieces, trailing, Reading.iterate_finished ?_ hn, htokens.trans h.done, hcells, h.pieces,
    h.blanks, ?_⟩
  · rw [htokens, ← h.gap, ← hrest]
  · rw [htokens, h.done, flatMap_token, ← List.map_append, ← hcells, hcontent, cellsFrom_chars]

/-- A block comment that is cut at its first slash, a number without an exponent, and a literal that
is not closed. -/
theorem tokens_lossless_mixed :
    ∃ line ∈ scriptLines "f()\n\tx /*/ \"*/>=.5e+ 'it ".toList, line.inComment = false ∧
      (tokens (line.cells.drop (leadingBlanks line.text).length)).map
        (fun token => (token.gap, token.text)) =
        [("", "x"), (" ", "/*/"), ("", " \"*/"), ("", ">="), ("", ".5"), ("", "e"), ("", "+"),
          (" ", "'it ")].map
          (Prod.map String.toList String.toList) := by
  have hline : ⟨.code, cellsFrom (.code false) "\tx /*/ \"*/>=.5e+ 'it ".toList⟩ ∈
      scriptLines "f()\n\tx /*/ \"*/>=.5e+ 'it ".toList := List.mem_of_getElem? (i := 1) rfl
  obtain ⟨pieces, trailing, hround, -⟩ := tokens_lossless hline rfl
  refine ⟨_, hline, rfl, ?_⟩
  have htokens : (Reading.round^[_] _).done = tokens _ := congrArg Reading.done hround
  rw [← htokens]
  decide +kernel

end PineTools.Layout
