import PineTools.Proofs.Layout.Masks

/-! Where a line is cut into tokens. A token that others follow leaves the scanner in code, or
inside a block comment that the next token continues, and apart from a slash it is read in the same
way whatever stands behind it. So the gaps between tokens may change without a change of what the
tokens are. -/
namespace PineTools.Layout

open Reader

/-- How the characters of a token of code bear on its kind. -/
structure CodeShape (kind : TokenKind) (t : Text) : Prop where
  nonempty : t ≠ []
  slash : t.getLast? = some '/' → kind = .operator ∧ t = ['/']
  backslash : t.getLast? = some '\\' → kind = .other
  quote (q : Quote) : t.head? = some q.char → kind = .other
  sign : t.head? = some '/' ∨ t.head? = some '*' → kind = .operator

theorem codeShape_of_calm (kind : TokenKind) {t : Text} (hne : t ≠ [])
    (h : ∀ c ∈ t, isCalm c = true) :
    CodeShape kind t := by
  have last (c : Char) (hc : isCalm c = false) : t.getLast? ≠ some c := by
    intro e
    rw [h c (List.mem_of_getLast? e)] at hc
    cases hc
  have first (c : Char) (hc : isCalm c = false) : t.head? ≠ some c := by
    intro e
    rw [h c (List.mem_of_head? e)] at hc
    cases hc
  refine ⟨hne, fun e => ?_, fun e => ?_, fun q e => ?_, fun e => ?_⟩
  · exact absurd e (last '/' (by decide))
  · exact absurd e (last '\\' (by decide))
  · cases q
    · exact absurd e (first _ (by decide))
    · exact absurd e (first _ (by decide))
  · rcases e with e | e
    · exact absurd e (first '/' (by decide))
    · exact absurd e (first '*' (by decide))

theorem codeShape_singleton {kind : TokenKind} {c : Char} (hback : c = '\\' → kind = .other)
    (hquote : ∀ q : Quote, c = q.char → kind = .other) (hsign : c = '/' ∨ c = '*' →
      kind = .operator) :
    CodeShape kind [c] := by
  refine ⟨List.cons_ne_nil _ _, fun e => ?_, fun e => ?_, fun q e => ?_, fun e => ?_⟩
  · cases e
    exact ⟨hsign (.inl rfl), rfl⟩
  · exact hback (Option.some_inj.mp e)
  · exact hquote q (Option.some_inj.mp e)
  · exact hsign (e.imp Option.some_inj.mp Option.some_inj.mp)

theorem codeShape_operator {t : Text}
    (h : (∃ w ∈ longOperators, t = w.toList) ∨ ∃ c, isOperatorChar c = true ∧ t = [c]) :
    CodeShape .operator t := by
  rcases h with ⟨w, hw, rfl⟩ | ⟨c, hc, rfl⟩
  · have h : ∀ w ∈ longOperators, w.toList ≠ [] ∧ w.toList.getLast? ≠ some '/' ∧
      w.toList.getLast? ≠ some '\\' ∧
        w.toList.head? ≠ some Quote.single.char ∧ w.toList.head? ≠ some Quote.double.char := by
          decide
    obtain ⟨hne, hslash, hback, hsingle, hdouble⟩ := h w hw
    refine ⟨hne, (absurd · hslash), (absurd · hback), fun q e => ?_, fun _ => rfl⟩
    cases q
    · exact absurd e hsingle
    · exact absurd e hdouble
  · refine codeShape_singleton ?_ ?_ fun _ => rfl
    · rintro rfl
      exact absurd hc (by decide)
    · rintro (_ | _) rfl
      · exact absurd hc (by decide)
      · exact absurd hc (by decide)

theorem codeShape_mark {kind : TokenKind} {c : Char} (h : punctuation? c = some kind) :
    CodeShape kind [c] := by
  refine codeShape_singleton ?_ ?_ ?_
  · rintro rfl
    exact absurd h
      (by simp [punctuation?, isOpener, isCloser, Bracket.ofOpener?, Bracket.ofCloser?])
  · rintro (_ | _) rfl
    · exact absurd h
        (by simp [punctuation?, isOpener, isCloser, Bracket.ofOpener?, Bracket.ofCloser?,
        Quote.char])
    · exact absurd h
        (by simp [punctuation?, isOpener, isCloser, Bracket.ofOpener?, Bracket.ofCloser?,
        Quote.char])
  · rintro (rfl | rfl)
    · exact absurd h
        (by simp [punctuation?, isOpener, isCloser, Bracket.ofOpener?, Bracket.ofCloser?])
    · exact absurd h
        (by simp [punctuation?, isOpener, isCloser, Bracket.ofOpener?, Bracket.ofCloser?])

theorem seenText_of_code {v : List Cell} (h : ∀ g ∈ v, g.region = .code) :
    seenText v = v.map Cell.char :=
  List.map_congr_left fun g hg => Cell.masked_of_code (h g hg)

theorem codeToken_shape (b : Bool) {t : Text} (ht : Text.OneLine t) {c : Cell} {cs : List Cell}
    (ecells : cellsFrom (.code b) t = c :: cs) (hc : c.region = .code) :
    (∀ g ∈ (c :: cs).take (codeToken c cs).2, g.region = .code) ∧
      CodeShape (codeToken c cs).1 (((c :: cs).take (codeToken c cs).2).map Cell.char) := by
  have inCode {p : Char → Bool} (blank : p ' ' = false) (quote : ∀ q : Quote, p q.char = false)
    {v r : List Cell}
      (e : c :: cs = v ++ r) (hv : ∀ g ∈ v, p (Glyph.seen g) = true) :
      (c :: cs).take v.length = v ∧ ∀ g ∈ v, g.region = .code := by
    have htake : (c :: cs).take v.length = v := by rw [e, List.take_left']; rfl
    have := code_of_shown blank quote b ht v.length
    rw [ecells, htake] at this
    exact ⟨htake, this hv⟩
  have single : ∀ g ∈ (c :: cs).take 1, g.region = .code := List.forall_mem_singleton.mpr hc
  have hcases := codeToken_cases c cs
  generalize codeToken c cs = token at hcases ⊢
  obtain ⟨kind, size⟩ := token
  cases hcases with
  | @calm kind v r hkind hne e hv =>
    obtain ⟨htake, hcode⟩ := inCode (p := isCalm) (by decide) (by intro q; cases q <;> decide) e hv
    rw [htake]
    refine ⟨hcode, codeShape_of_calm _ (by simpa using hne) ?_⟩
    rw [← seenText_of_code hcode]
    exact fun x hx => by
      obtain ⟨g, hg, rfl⟩ := List.mem_map.mp hx
      exact hv g hg
  | mark hp => exact ⟨single, codeShape_mark hp⟩
  | @operator v r ho =>
    obtain ⟨e, hv⟩ := takes_operatorToken ho
    obtain ⟨htake, hcode⟩ := inCode (p := isSign) (by decide) (by intro q; cases q <;> decide) e hv
    rw [htake]
    refine ⟨hcode, codeShape_operator ?_⟩
    rw [← seenText_of_code hcode]
    exact operatorToken_text ho
  | other ho =>
    refine ⟨single, codeShape_singleton (fun _ => rfl) (fun _ _ => rfl) fun hs => ?_⟩
    refine absurd ho (operatorToken_one ?_ cs)
    change isOperatorChar c.masked = true
    rw [Cell.masked_of_code hc]
    rcases hs with hs | hs
    · rw [hs]; decide
    · rw [hs]; decide

/-- How a token is cut off from what follows it. -/
structure Cut (m : Mode) (kind : TokenKind) (t rest : Text) : Prop where
  alike (ahead : Option Char) (h : kind = .operator → t = ['/'] → ahead ≠ some '/' ∧
    ahead ≠ some '*') :
    ReadsAlike m t ahead rest.head?
  literals (cs : List Cell) : literalsFrom [] (cellsUpTo m rest.head? t ++ cs) =
    literalsFrom [] (cellsUpTo m rest.head? t) ++ literalsFrom [] cs
  next : (∃ b, m.after rest.head? t = .code b ∧ (b = true → kind = .other)) ∨
    kind = .comment ∧ m.after rest.head? t = .block
  slash : kind = .operator → t = ['/'] → rest.head? ≠ some '/' ∧ rest.head? ≠ some '*'

theorem literalsFrom_plain {a : List Cell} (h : ∀ g ∈ a, g.region.isLiteral = false) (hne : a ≠ [])
    (opened : Text) (cs : List Cell) : literalsFrom opened (a ++ cs) = literalsFrom [] cs := by
  induction a generalizing opened with
  | nil => exact absurd rfl hne
  | cons c a ih =>
    obtain ⟨hc, ha⟩ := List.forall_mem_cons.mp h
    rw [List.cons_append, literalsFrom, hc]
    by_cases e : a = []
    · subst e
      rfl
    · exact ih ha e []

theorem literals_of_plain {a : List Cell} (h : ∀ g ∈ a, g.region.isLiteral = false)
    (cs : List Cell) :
    literalsFrom [] (a ++ cs) = literalsFrom [] a ++ literalsFrom [] cs := by
  by_cases e : a = []
  · subst e
    rfl
  · have hnil := literalsFrom_plain h e [] []
    rw [List.append_nil] at hnil
    rw [literalsFrom_plain h e, hnil]
    rfl

theorem cut_code {b : Bool} {kind : TokenKind} {t rest : Text} (shape : CodeShape kind t)
    (hcode : ∀ g ∈ cellsUpTo (.code b) rest.head? t, g.region = .code) :
    Cut (.code b) kind t rest := by
  obtain ⟨a, x, rfl⟩ : ∃ a x, t = a ++ [x] :=
    ⟨_, _, (List.dropLast_concat_getLast shape.nonempty).symm⟩
  have hlast : (a ++ [x]).getLast? = some x := List.getLast?_concat
  have hafter := after_of_code b rest.head? shape.nonempty hcode
  rw [hlast] at hafter
  have hbefore : ∃ b', (Mode.code b).after (some x) a = .code b' := by
    by_cases e : a = []
    · subst e
      exact ⟨b, rfl⟩
    · refine ⟨_, after_of_code b (some x) e fun g hg => hcode g ?_⟩
      rw [cellsUpTo_concat]
      exact List.mem_append_left _ hg
  obtain ⟨b', hb'⟩ := hbefore
  have hstep : ((Mode.code b').step x rest.head?).1.region = .code := by
    refine hcode _ ?_
    rw [cellsUpTo_concat, hb']
    exact List.mem_append_right _ List.mem_cons_self
  have hpair : ¬ (x = '/' ∧ (rest.head? = some '/' ∨ rest.head? = some '*')) := by
    rw [Mode.step] at hstep
    obtain ⟨-, -, e⟩ | ⟨-, -, e⟩ | ⟨q, -, -, e⟩ | ⟨h, -⟩ := Mode.stepCode_cases b' x rest.head?
    · rw [e] at hstep
      cases hstep
    · rw [e] at hstep
      cases hstep
    · rw [e] at hstep
      cases hstep
    · exact h
  refine ⟨fun ahead h => ?_, ?_, .inl ⟨_, hafter, fun e => ?_⟩, fun hk e => ?_⟩
  · refine readsAlike_concat ?_
    rw [hb']
    by_cases hx : x = '/'
    · subst hx
      obtain ⟨hk, e⟩ := shape.slash hlast
      obtain ⟨h₁, h₂⟩ := h hk e
      simp only [not_and, true_implies, not_or] at hpair
      simp only [Mode.step, Mode.stepCode, h₁, h₂, hpair, and_false, if_false]
    · simp only [Mode.step, Mode.stepCode, hx, false_and, if_false]
  · exact literals_of_plain fun g hg => by rw [hcode g hg]; rfl
  · rw [beq_iff_eq, Option.some_inj] at e
    exact shape.backslash (e ▸ hlast)
  · have hx : x = '/' := by
      rw [e] at hlast
      exact (Option.some_inj.mp hlast).symm
    exact ⟨fun h => hpair ⟨hx, .inl h⟩, fun h => hpair ⟨hx, .inr h⟩⟩

theorem literalLength_spec (q : Quote) {m : Mode} (hm : m = .literal q ∨ m = .escaped q) {t : Text}
    (ht : Text.OneLine t) :
    t.drop (literalLength (cellsFrom m t)) = [] ∨
      ∃ a, t.take (literalLength (cellsFrom m t)) = a ++ [q.char] ∧ m.after (some q.char) a =
        .literal q ∧
        ∀ g ∈ cellsUpTo m (some q.char) a, g.region.isLiteral = true ∧ g.delimiter = false := by
  induction t generalizing m with
  | nil => exact .inl List.drop_nil
  | cons c cs ih =>
    have hc : c ≠ '\n' := ht.head
    have hcs : Text.OneLine cs := ht.tail
    -- A character that leaves the literal open belongs to it, and the rest is read on.
    have goOn {m' : Mode} (hm' : m' = .literal q ∨ m' = .escaped q)
        (hstep : m.step c cs.head? = (⟨c, .literal q, false⟩, m')) :
        (c :: cs).drop (literalLength (cellsFrom m (c :: cs))) = [] ∨
          ∃ a, (c :: cs).take (literalLength (cellsFrom m (c :: cs))) = a ++ [q.char] ∧
            m.after (some q.char) a = .literal q ∧
            ∀ g ∈ cellsUpTo m (some q.char) a, g.region.isLiteral = true ∧ g.delimiter = false := by
      have hlen : literalLength (cellsFrom m (c :: cs)) = literalLength (cellsFrom m' cs) + 1 := by
        rw [cellsFrom, hstep]
        rfl
      rw [hlen, List.drop_succ_cons, List.take_succ_cons]
      refine (ih hm' hcs).imp_right ?_
      rintro ⟨a, ea, hafter, hall⟩
      have hahead : a.head?.or (some q.char) = cs.head? := by
        have : (a ++ [q.char]).head? = cs.head? := by
          rw [← ea, List.head?_take]
          split
          · rename_i h0
            rw [h0] at ea
            exact absurd ea (by simp)
          · rfl
        rw [← this, List.head?_append]
        rfl
      refine ⟨c :: a, by rw [ea]; rfl, ?_, ?_⟩
      · rw [Mode.after, hahead, hstep]
        exact hafter
      · rw [cellsUpTo, hahead, hstep]
        exact List.forall_mem_cons.mpr ⟨⟨rfl, rfl⟩, hall⟩
    rcases hm with rfl | rfl
    · obtain ⟨e, -⟩ | ⟨e, hstep⟩ | ⟨-, -, hstep⟩ | ⟨-, -, -, hstep⟩ :=
        Mode.stepLiteral_cases q c cs.head?
      · exact absurd e hc
      · refine .inr ⟨[], ?_, rfl, List.forall_mem_nil _⟩
        rw [cellsFrom, Mode.step, hstep, e]
        rfl
      · exact goOn (.inr rfl) hstep
      · exact goOn (.inl rfl) hstep
    · exact goOn (.inl rfl) rfl

theorem literalsFrom_close {opened : Text} (hopened : opened ≠ []) {body : List Cell}
    (h : ∀ g ∈ body, g.region.isLiteral = true ∧ g.delimiter = false) {close : Cell}
    (hclose : close.region.isLiteral = true ∧ close.delimiter = true) (cs : List Cell) :
    literalsFrom opened (body ++ close :: cs) = (opened ++ body.map Cell.char ++ [close.char]) ::
      literalsFrom [] cs := by
  induction body generalizing opened with
  | nil => simp [literalsFrom, hclose, hopened]
  | cons c body ih =>
    obtain ⟨hc, hbody⟩ := List.forall_mem_cons.mp h
    rw [List.cons_append, literalsFrom, hc.1, hc.2, Bool.false_and, if_pos rfl,
      if_neg Bool.false_ne_true, ih (by simp) hbody, List.map_cons, List.append_assoc opened]
    rfl

theorem step_code_quote {c : Char} {q : Quote} (hq : Quote.ofChar? c = some q)
    (ahead : Option Char) :
    (Mode.code false).step c ahead = (⟨c, .literal q, true⟩, .literal q) := by
  have hslash : c ≠ '/' := by
    rw [Quote.ofChar?_eq_some hq]
    cases q <;> decide
  simp only [Mode.step, Mode.stepCode, hslash, false_and, if_false, hq]

theorem step_literal_quote (q : Quote) (ahead : Option Char) :
    (Mode.literal q).step q.char ahead = (⟨q.char, .literal q, true⟩, .code false) := by
  have hn : q.char ≠ '\n' := by cases q <;> decide
  simp only [Mode.step, Mode.stepLiteral, hn, if_false, if_true]

theorem cut_literal {c : Char} {q : Quote} (hq : Quote.ofChar? c = some q) {t : Text}
    (ht : Text.OneLine t) :
    t.drop (literalLength (cellsFrom (.literal q) t)) = [] ∨
      Cut (.code false) .literal (c :: t.take (literalLength (cellsFrom (.literal q) t)))
        (t.drop (literalLength (cellsFrom (.literal q) t))) := by
  refine (literalLength_spec q (.inl rfl) ht).imp_right ?_
  rintro ⟨a, ea, hafter, hbody⟩
  rw [ea]
  generalize t.drop (literalLength (cellsFrom (.literal q) t)) = rest
  have hstart : (Mode.code false).after (some q.char) (c :: a) = .literal q := by
    rw [Mode.after, step_code_quote hq]
    exact hafter
  have hcells (ahead : Option Char) : cellsUpTo (.code false) ahead (c :: a ++ [q.char]) =
      ⟨c, .literal q, true⟩ ::
        (cellsUpTo (.literal q) (some q.char) a ++ [⟨q.char, .literal q, true⟩]) := by
    rw [cellsUpTo_concat, hstart, step_literal_quote, cellsUpTo, step_code_quote hq]
    rfl
  have hlits (cs : List Cell) :
    literalsFrom [] (cellsUpTo (.code false) rest.head? (c :: a ++ [q.char]) ++ cs) =
      (c :: a ++ [q.char]) :: literalsFrom [] cs := by
    rw [hcells, List.cons_append, List.append_assoc]
    simp only [literalsFrom, Region.isLiteral, List.isEmpty_nil, Bool.not_true,
      Bool.and_false, if_true, Bool.false_eq_true, if_false, List.nil_append]
    rw [List.cons_append, List.nil_append,
      literalsFrom_close (List.cons_ne_nil c []) hbody ⟨rfl, rfl⟩, cellsUpTo_chars]
    rfl
  rw [← List.cons_append]
  refine ⟨fun ahead _ => readsAlike_concat ?_, fun cs => ?_, .inl ⟨false, ?_, by decide⟩,
    fun h => by cases h⟩
  · rw [hstart, step_literal_quote, step_literal_quote]
  · have hnil := hlits []
    rw [List.append_nil] at hnil
    rw [hlits, hnil]
    rfl
  · rw [after_concat, hstart, step_literal_quote]

theorem lineComment_rest {m : Mode} (hm : m = .lineSecond ∨ m = .line) {t : Text}
    (ht : Text.OneLine t) (taken : Nat) (last : Char) :
    t.drop (commentLength .lineComment taken last (cellsFrom m t)) = [] := by
  induction t generalizing m taken last with
  | nil => exact List.drop_nil
  | cons c cs ih =>
    have hc : c ≠ '\n' := ht.head
    have hcs : Text.OneLine cs := ht.tail
    have hstep : m.step c cs.head? = (⟨c, .lineComment, false⟩, .line) := by
      rcases hm with rfl | rfl
      · rfl
      · rw [Mode.step, if_neg hc]
    rw [cellsFrom, hstep]
    simp only [commentLength, if_true, reduceCtorEq, false_and, if_false, List.drop_succ_cons]
    exact ih (.inr rfl) hcs _ _

/-- Where the scanner may stand inside a token made of block comments, and what it then has to read
next. -/
def AmidComment (m : Mode) (t : Text) : Prop :=
  m = .blockSecond ∧ t.head? = some '*' ∨ m = .block ∨ m = .blockLast ∧ t.head? = some '/' ∨
    m = .code false

theorem amidComment_step {m : Mode} {c : Char} {cs : Text} (hm : AmidComment m (c :: cs))
    (hc : (m.step c cs.head?).1.region = .blockComment) :
    AmidComment (m.step c cs.head?).2 cs ∧
      (c = '*' → (m.step c cs.head?).2 = .block ∨ (m.step c cs.head?).2 = .blockLast) ∧
      ((m.step c cs.head?).2 = .code false → m = .blockLast) := by
  rcases hm with ⟨rfl, -⟩ | rfl | ⟨rfl, h⟩ | rfl
  · exact ⟨.inr (.inl rfl), fun _ => .inl rfl, fun e => by cases e⟩
  · by_cases h : c = '*' ∧ cs.head? = some '/'
    · rw [Mode.step, if_pos h]
      exact ⟨.inr (.inr (.inl ⟨rfl, h.2⟩)), fun _ => .inr rfl, fun e => by cases e⟩
    · rw [Mode.step, if_neg h]
      exact ⟨.inr (.inl rfl), fun _ => .inl rfl, fun e => by cases e⟩
  · refine ⟨.inr (.inr (.inr rfl)), fun e => ?_, fun _ => rfl⟩
    rw [List.head?_cons, e] at h
    exact absurd h (by decide)
  · rw [Mode.step] at hc ⊢
    obtain ⟨-, -, e⟩ | ⟨rfl, h, e⟩ | ⟨q, -, -, e⟩ | ⟨-, -, e⟩ :=
      Mode.stepCode_cases false c cs.head?
    · rw [e] at hc
      cases hc
    · rw [e]
      exact ⟨.inl ⟨rfl, h⟩, fun h => absurd h (by decide), fun e => by cases e⟩
    · rw [e] at hc
      cases hc
    · rw [e] at hc
      cases hc

theorem amidComment_region {m : Mode} {t : Text} (hm : AmidComment m t)
    (h : m ≠ .code false) (c : Char) (ahead : Option Char) : (m.step c ahead).1.region =
      .blockComment := by
  rcases hm with ⟨rfl, -⟩ | rfl | ⟨rfl, -⟩ | rfl
  · rfl
  · rw [Mode.step]
    split <;> rfl
  · rfl
  · exact absurd rfl h

/-- A sign of a comment is followed by another of the token, unless the token ends with it and the
last pair. -/
theorem step_ahead_of_commentLength {m m' : Mode} {c : Char} {cs : Text} (hm : AmidComment m' cs)
    (hback : m' = .code false → m = .blockLast) (hcs : cs ≠ []) {taken k : Nat}
    (hk : k = commentLength .blockComment taken c (cellsFrom m' cs)) (ahead : Option Char) :
    m.step c ((cs.take k).head?.or ahead) = m.step c cs.head? := by
  obtain ⟨d, ds, rfl⟩ := List.exists_cons_of_ne_nil hcs
  cases k with
  | succ k => rfl
  | zero =>
    obtain rfl : m = .blockLast := by
      refine hback (Classical.byContradiction fun h => ?_)
      rw [cellsFrom, commentLength, if_pos (amidComment_region hm h d _)] at hk
      split at hk <;> cases hk
    rfl

/-- A comment token ends where the scanner is back in code, at a cut, or at the end of the line. -/
theorem blockComment_rest {m : Mode} {t : Text} (hm : AmidComment m t) (taken : Nat) {last : Char}
    (hlast : last = '*' → m = .block ∨ m = .blockLast) {n : Nat}
    (hn : n = commentLength .blockComment taken last (cellsFrom m t)) :
    t.drop n = [] ∨
      (m.after (t.drop n).head? (t.take n) = .code false ∨
        m.after (t.drop n).head? (t.take n) = .block) ∧
        ∀ ahead, ReadsAlike m (t.take n) ahead (t.drop n).head? := by
  induction t generalizing m taken last n with
  | nil => exact .inl List.drop_nil
  | cons c cs ih =>
    rw [cellsFrom, commentLength] at hn
    split at hn
    case isFalse hregion =>
      subst hn
      refine .inr ⟨.inl ?_, fun ahead => ⟨rfl, rfl⟩⟩
      exact Classical.byContradiction fun h => hregion (amidComment_region hm h c _)
    case isTrue hregion =>
      split at hn
      case isTrue hcut =>
        subst hn
        obtain ⟨-, rfl, hslash, -⟩ := hcut
        rw [Mode.step_char] at hslash
        subst hslash
        rcases hlast rfl with rfl | rfl
        · exact .inr ⟨.inr rfl, fun ahead => ⟨rfl, rfl⟩⟩
        · exact .inr ⟨.inl rfl, fun ahead => ⟨rfl, rfl⟩⟩
      case isFalse hcut =>
        obtain ⟨hm', hstar, hback⟩ := amidComment_step hm hregion
        rw [Mode.step_char] at hn
        obtain ⟨k, hk⟩ : ∃ k, k = commentLength .blockComment (taken + 1) c
            (cellsFrom (m.step c cs.head?).2 cs) :=
          ⟨_, rfl⟩
        rw [← hk] at hn
        subst hn
        rw [List.drop_succ_cons, List.take_succ_cons]
        rcases ih hm' (taken + 1) hstar hk with hnil | ⟨hafter, halike⟩
        · exact .inl hnil
        by_cases hcs : cs = []
        · subst hcs
          exact .inl List.drop_nil
        have hahead (ahead : Option Char) : m.step c ((cs.take k).head?.or ahead) =
            m.step c cs.head? :=
          step_ahead_of_commentLength hm' hback hcs hk ahead
        refine .inr ⟨?_, fun ahead => readsAlike_cons ?_ ?_⟩
        · rw [Mode.after, hahead]
          exact hafter
        · rw [hahead, hahead]
        · rw [hahead]
          exact halike ahead

theorem cut_comment {m : Mode} {c : Char} {cs : Text}
    (hstart : AmidComment (m.step c cs.head?).2 cs ∧ (m.step c cs.head?).2 ≠ .code false)
    (hregion : (m.step c cs.head?).1.region = .blockComment)
    (hstar : c = '*' → (m.step c cs.head?).2 = .block ∨ (m.step c cs.head?).2 = .blockLast)
    {n : Nat} (hn : n = commentLength .blockComment 1 c (cellsFrom (m.step c cs.head?).2 cs)) :
    cs.drop n = [] ∨ Cut m .comment (c :: cs.take n) (cs.drop n) := by
  by_cases hcs : cs = []
  · subst hcs
    exact .inl List.drop_nil
  rcases blockComment_rest hstart.1 1 hstar hn with hnil | ⟨hafter, halike⟩
  · exact .inl hnil
  have hhead (ahead : Option Char) : (cs.take n).head?.or ahead = cs.head? := by
    obtain ⟨d, ds, rfl⟩ := List.exists_cons_of_ne_nil hcs
    rw [cellsFrom, commentLength, if_pos (amidComment_region hstart.1 hstart.2 d _)] at hn
    split at hn <;> subst hn <;> rfl
  refine .inr ⟨fun ahead _ => readsAlike_cons ?_ ?_, literals_of_plain ?_, ?_, fun h => by cases h⟩
  · rw [hhead, hhead]
  · rw [hhead]
    exact halike ahead
  · have hall := commentLength_region .blockComment 1 c (cellsFrom (m.step c cs.head?).2 cs)
    rw [← hn, cellsFrom_take] at hall
    rw [cellsUpTo, hhead]
    refine List.forall_mem_cons.mpr ⟨by rw [hregion]; rfl, fun g hg => ?_⟩
    rw [hall g hg]
    rfl
  · rw [Mode.after, hhead]
    rcases hafter with e | e
    · exact .inl ⟨false, e, by decide⟩
    · exact .inr ⟨rfl, e⟩

/-- How the first character of a token bears on its kind. -/
structure TokenStart (m : Mode) (kind : TokenKind) (c : Char) : Prop where
  block : m = .block → kind = .comment
  quote (q : Quote) : c = q.char → kind = .literal ∨ kind = .other ∨ kind = .comment
  sign : c = '/' ∨ c = '*' → kind = .operator ∨ kind = .comment

theorem tokenStart_comment (m : Mode) (c : Char) : TokenStart m .comment c :=
  ⟨fun _ => rfl, fun _ _ => .inr (.inr rfl), fun _ => .inr rfl⟩

/-- The token that a line starts with, when it is read from code or inside a block comment. -/
theorem tokenAt_cut {m : Mode} (hm : m = .block ∨ ∃ b, m = .code b) {c : Char} {cs : Text}
    (ht : Text.OneLine (c :: cs)) {kind : TokenKind} {n : Nat}
    (e : tokenAt (m.step c cs.head?).1 (cellsFrom (m.step c cs.head?).2 cs) = (kind, n)) :
    TokenStart m kind c ∧ (cs.drop n = [] ∨ Cut m kind (c :: cs.take n) (cs.drop n)) := by
  have hcs : Text.OneLine cs := ht.tail
  rcases hm with rfl | ⟨b, rfl⟩
  · have hregion : (Mode.block.step c cs.head?).1.region = .blockComment :=
      amidComment_region (t := []) (.inr (.inl rfl)) (by decide) c _
    obtain ⟨hamid, hstar, hback⟩ := amidComment_step (.inr (.inl rfl)) hregion
    simp only [tokenAt, hregion, Mode.step_char, Prod.mk.injEq] at e
    obtain ⟨rfl, hn⟩ := e
    exact ⟨tokenStart_comment _ c, cut_comment ⟨hamid, fun h => by cases hback h⟩ hregion
      hstar hn.symm⟩
  · have hstep : (Mode.code b).step c cs.head? = Mode.stepCode b c cs.head? := rfl
    obtain ⟨rfl, -, hc⟩ | ⟨rfl, h, hc⟩ | ⟨q, rfl, hq, hc⟩ | ⟨-, -, hc⟩ :=
      Mode.stepCode_cases b c cs.head?
    · rw [hstep, hc] at e
      simp only [tokenAt, Prod.mk.injEq] at e
      obtain ⟨rfl, rfl⟩ := e
      exact ⟨tokenStart_comment _ _, .inl (lineComment_rest (.inl rfl) hcs _ _)⟩
    · rw [hstep, hc] at e
      simp only [tokenAt, Prod.mk.injEq] at e
      obtain ⟨rfl, hn⟩ := e
      refine ⟨tokenStart_comment _ _, cut_comment ?_ ?_ ?_ ?_⟩
      · rw [hstep, hc]
        exact ⟨.inl ⟨rfl, h⟩, by decide⟩
      · rw [hstep, hc]
      · exact fun e => absurd e (by decide)
      · rw [hstep, hc, hn]
    · rw [hstep, hc] at e
      simp only [tokenAt, Prod.mk.injEq] at e
      obtain ⟨rfl, rfl⟩ := e
      refine ⟨⟨fun e => by (cases e), fun _ _ => .inl rfl, fun h => ?_⟩, cut_literal hq hcs⟩
      rw [Quote.ofChar?_eq_some hq] at h
      cases q <;> exact absurd h (by decide)
    · have ecells : cellsFrom (.code b) (c :: cs) = ⟨c, .code, false⟩ :: cellsFrom
          (.code (c == '\\')) cs := by
        rw [cellsFrom, hstep, hc]
      obtain ⟨hcode, shape⟩ := codeToken_shape b ht ecells rfl
      rw [hstep, hc] at e
      simp only [tokenAt, Prod.mk.injEq] at e
      generalize codeToken ⟨c, .code, false⟩ (cellsFrom (.code (c == '\\')) cs) =
        token at e hcode shape
      obtain ⟨kind', size⟩ := token
      obtain ⟨rfl, rfl⟩ := e
      rw [← ecells, cellsFrom_take] at hcode shape
      rw [cellsUpTo_chars] at shape
      cases size with
      | zero => exact absurd rfl shape.nonempty
      | succ size =>
        refine ⟨⟨fun e => by (cases e), fun q hq => ?_, fun h => ?_⟩, .inr (cut_code shape hcode)⟩
        · exact .inr (.inl (shape.quote q (congrArg some hq)))
        · exact .inl (shape.sign (h.imp (congrArg some) (congrArg some)))

theorem cellsFrom_rest (m : Mode) (c : Char) (cs : Text) (n : Nat) :
    (cellsFrom (m.step c cs.head?).2 cs).drop n =
      cellsFrom (m.after (cs.drop n).head? (c :: cs.take n)) (cs.drop n) := by
  have hhead : (cs.take n).head?.or (cs.drop n).head? = cs.head? := by
    rw [← List.head?_append, List.take_append_drop]
  rw [cellsFrom_drop, Mode.after, hhead]

theorem tokensAfter_blank (gap : Text) {cell : Cell} (h : (cell.isCode && Text.isBlank cell.char) =
    true) (cs : List Cell) :
    tokensAfter gap (cell :: cs) = tokensAfter (gap ++ [cell.char]) cs := by
  rw [tokensAfter, if_pos h]

theorem tokensAfter_token (gap : Text) {cell : Cell}
    (h : (cell.isCode && Text.isBlank cell.char) = false) {cs : List Cell} {kind : TokenKind}
    {n : Nat} (e : tokenAt cell cs = (kind, n)) :
    tokensAfter gap (cell :: cs) =
      { kind, text := cell.char :: (cs.take n).map Cell.char, gap } :: tokensAfter []
      (cs.drop n) := by
  rw [tokensAfter, if_neg (by rw [h]; decide), e]

theorem tokensAfter_cellsFrom (gap : Text) {m : Mode} {c : Char} {cs : Text}
    (h : ((m.step c cs.head?).1.isCode && Text.isBlank c) = false) {kind : TokenKind} {n : Nat}
    (e : tokenAt (m.step c cs.head?).1 (cellsFrom (m.step c cs.head?).2 cs) = (kind, n)) :
    tokensAfter gap (cellsFrom m (c :: cs)) =
      { kind, text := c :: cs.take n, gap } ::
        tokensAfter [] (cellsFrom (m.after (cs.drop n).head? (c :: cs.take n)) (cs.drop n)) := by
  rw [cellsFrom, tokensAfter_token gap (by rwa [Mode.step_char]) e, cellsFrom_rest, Mode.step_char,
    cellsFrom_take, cellsUpTo_chars]

theorem oneLine_drop {t : Text} (h : Text.OneLine t) (n : Nat) : Text.OneLine (t.drop n) :=
  fun k => h (List.mem_of_mem_drop k)

/-- The tokens of a text that is read from a mode after a gap, with what is known about each of
them. -/
inductive Tokenized : Mode → Text → Text → List Token → Prop
  | nil (m : Mode) (gap : Text) : Tokenized m gap [] []
  | blank {b : Bool} {gap : Text} {c : Char} {cs : Text} {ts : List Token} : Text.isBlank c = true →
      Tokenized (.code false) (gap ++ [c]) cs ts → Tokenized (.code b) gap (c :: cs) ts
  | token {m : Mode} {gap : Text} {c : Char} {cs : Text} {kind : TokenKind} {n : Nat}
  {ts : List Token} :
      TokenStart m kind c →
      Shows kind ((cellsUpTo m (cs.drop n).head? (c :: cs.take n)).map Cell.masked) →
      (kind ≠ .comment → Text.isBlank c = false) →
      cs.drop n = [] ∨ Cut m kind (c :: cs.take n) (cs.drop n) →
      Tokenized (m.after (cs.drop n).head? (c :: cs.take n)) [] (cs.drop n) ts →
      Tokenized m gap (c :: cs) ({ kind, text := c :: cs.take n, gap } :: ts)

theorem Tokenized.eq_nil {m : Mode} {gap : Text} {ts : List Token} (h : Tokenized m gap [] ts) :
    ts = [] := by
  cases h
  rfl

theorem tokenized_tokensAfter {m : Mode} (hm : m = .block ∨ ∃ b, m = .code b) (gap : Text)
    {t : Text} (ht : Text.OneLine t) :
    Tokenized m gap t (tokensAfter gap (cellsFrom m t)) := by
  induction hlen : t.length using Nat.strongRecOn generalizing m gap t with
  | ind len ih =>
  subst hlen
  cases t with
  | nil =>
    rw [cellsFrom, tokensAfter]
    exact .nil m gap
  | cons c cs =>
    have hcs : Text.OneLine cs := ht.tail
    have hstep (b : Bool) (hc : Text.isBlank c = true) : (Mode.code b).step c cs.head? =
        (⟨c, .code, false⟩, .code false) :=
      Mode.stepCode_white b (Text.isSpace_of_isBlank hc) _
    cases hblank : (m.step c cs.head?).1.isCode && Text.isBlank c with
    | true =>
      obtain ⟨hcode, hc⟩ := Bool.and_eq_true_iff.mp hblank
      rcases hm with rfl | ⟨b, rfl⟩
      · rw [Cell.isCode, amidComment_region (t := []) (.inr (.inl rfl)) (by decide) c _] at hcode
        exact absurd hcode (by decide)
      · rw [cellsFrom, hstep b hc, tokensAfter_blank gap (by rw [hc]; rfl)]
        exact .blank hc (ih cs.length (Nat.lt_succ_self _) (.inr ⟨false, rfl⟩) _ hcs rfl)
    | false =>
      obtain ⟨kind, n, e⟩ :
          ∃ kind n, tokenAt (m.step c cs.head?).1
          (cellsFrom (m.step c cs.head?).2 cs) = (kind, n) :=
        ⟨_, _, rfl⟩
      obtain ⟨start, hcut⟩ := tokenAt_cut hm ht e
      rw [tokensAfter_cellsFrom gap hblank e]
      refine .token start (shows_tokenAt ht hblank e) (fun hkind => ?_) hcut ?_
      · rcases hm with rfl | ⟨b, rfl⟩
        · exact absurd (start.block rfl) hkind
        · refine Bool.eq_false_iff.mpr fun hc => ?_
          rw [hstep b hc, hc] at hblank
          cases hblank
      · rcases hcut with hnil | cut
        · rw [hnil, cellsFrom, tokensAfter]
          exact .nil _ _
        · have hlen : (cs.drop n).length < (c :: cs).length := by
            rw [List.length_drop, List.length_cons]
            exact Nat.lt_succ_of_le (Nat.sub_le _ _)
          refine ih _ hlen ?_ [] (oneLine_drop hcs n) rfl
          rcases cut.next with ⟨b, e, -⟩ | ⟨-, e⟩
          · exact .inr ⟨b, e⟩
          · exact .inl e

end PineTools.Layout
