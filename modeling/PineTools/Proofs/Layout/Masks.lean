import PineTools.Proofs.Layout.Tokens
import PineTools.Proofs.Scan.Stretches

namespace PineTools.Layout

open Reader

def TokenKind.isSign : TokenKind → Bool
  | .operator | .opener | .closer | .comma | .dot => true
  | _ => false

/-- What the mask shows of a token of the given kind. -/
structure Shows (kind : TokenKind) (shown : Text) : Prop where
  comment : kind = .comment → ∀ c ∈ shown, c = ' '
  solid : kind ≠ .comment → ∀ c ∈ shown, Text.isBlank c = false
  sign : kind.isSign = true → ∀ c ∈ shown, Text.isWord c = false
  dot : kind.isSign = true → kind ≠ .dot → '.' ∉ shown

theorem shows_of_solid {kind : TokenKind} {shown : Text} (hkind : kind ≠ .comment)
    (hsign : kind.isSign = false) (h : ∀ c ∈ shown, Text.isBlank c = false) : Shows kind shown := by
  refine ⟨fun e => absurd e hkind, fun _ => h, fun e => ?_, fun e => ?_⟩
  · rw [hsign] at e
    cases e
  · rw [hsign] at e
    cases e

theorem commentLength_region (region : Region) (taken : Nat) (last : Char) (cs : List Cell) :
    ∀ g ∈ cs.take (commentLength region taken last cs), g.region = region := by
  fun_induction commentLength region taken last cs with
  | case1 => exact List.forall_mem_nil _
  | case2 taken last c cs hc h => exact List.forall_mem_singleton.mpr hc
  | case3 taken last c cs hc h ih => exact List.forall_mem_cons.mpr ⟨hc, ih⟩
  | case4 taken last c cs hc => exact List.forall_mem_nil _

theorem literalLength_region (cs : List Cell) :
    ∀ g ∈ cs.take (literalLength cs), g.region.isLiteral = true := by
  fun_induction literalLength cs with
  | case1 => exact List.forall_mem_nil _
  | case2 c cs hc h => exact List.forall_mem_singleton.mpr hc
  | case3 c cs hc h ih => exact List.forall_mem_cons.mpr ⟨hc, ih⟩
  | case4 c cs hc => exact List.forall_mem_nil _

theorem shows_mark {kind : TokenKind} {c : Char} (h : punctuation? c = some kind) :
    Shows kind [c] := by
  have hmarks : ∀ c ∈ "()[]{},.".toList, Text.isBlank c = false ∧ Text.isWord c = false := by decide
  have hopener (b : Bracket) : b.opener ∈ "()[]{},.".toList ∧ b.opener ≠ '.' := by
    cases b <;> decide
  have hcloser (b : Bracket) : b.closer ∈ "()[]{},.".toList ∧ b.closer ≠ '.' := by
    cases b <;> decide
  have mark (hkind : kind ≠ .comment) (hc : c ∈ "()[]{},.".toList) (hdot : c = '.' → kind = .dot) :
      Shows kind [c] := by
    refine ⟨fun e => absurd e hkind, fun _ => List.forall_mem_singleton.mpr (hmarks c hc).1,
      fun _ => List.forall_mem_singleton.mpr (hmarks c hc).2, fun _ hne hmem =>
        hne (hdot (List.mem_singleton.mp hmem).symm)⟩
  rw [punctuation?] at h
  split at h
  case isTrue ho =>
    cases h
    obtain ⟨b, hb⟩ := Option.isSome_iff_exists.mp ho
    obtain rfl := Bracket.ofOpener?_eq_some.mp hb
    exact mark (by decide) (hopener b).1 fun e => absurd e (hopener b).2
  case isFalse =>
    split at h
    case isTrue hc =>
      cases h
      obtain ⟨b, hb⟩ := Option.isSome_iff_exists.mp hc
      obtain rfl := Bracket.ofCloser?_eq_some.mp hb
      exact mark (by decide) (hcloser b).1 fun e => absurd e (hcloser b).2
    case isFalse =>
      split at h
      case isTrue hcomma =>
        cases h
        obtain rfl := beq_iff_eq.mp hcomma
        exact mark (by decide) (by decide) fun e => absurd e (by decide)
      case isFalse =>
        split at h
        case isTrue hdot =>
          cases h
          obtain rfl := beq_iff_eq.mp hdot
          exact mark (by decide) (by decide) fun _ => rfl
        case isFalse => cases h

theorem shows_operator {t : Text} (h : ∀ c ∈ t, isSign c = true) : Shows .operator t := by
  have hsigns : ∀ c ∈ "-+*/%<>=?:!".toList, Text.isBlank c = false ∧ Text.isWord c =
      false ∧ c ≠ '.' := by decide
  have hall (c : Char) (hc : c ∈ t) := hsigns c (List.contains_iff_mem.mp (h c hc))
  refine ⟨fun e => ?_, fun _ c hc => (hall c hc).1, fun _ c hc => (hall c hc).2.1, fun _ _ hc =>
    (hall '.' hc).2.2 rfl⟩
  cases e

theorem codeToken_pos (c : Cell) (cs : List Cell) : (codeToken c cs).2 ≠ 0 := by
  have hlong : ∀ w ∈ longOperators, w.toList ≠ [] := by decide
  have hcases := codeToken_cases c cs
  generalize codeToken c cs = token at hcases ⊢
  obtain ⟨kind, size⟩ := token
  cases hcases with
  | calm _ hne => exact fun e => hne (List.length_eq_zero_iff.mp e)
  | mark | other => exact Nat.one_ne_zero
  | operator ho =>
    intro e
    obtain rfl := List.length_eq_zero_iff.mp e
    rcases operatorToken_text ho with ⟨w, hw, e⟩ | ⟨c, -, e⟩
    · exact hlong w hw e.symm
    · cases e

theorem shows_codeToken {c : Cell} (hcode : c.region = .code) (hblank : Text.isBlank c.char = false)
    (cs : List Cell) :
    Shows (codeToken c cs).1 (((c :: cs).take (codeToken c cs).2).map Cell.masked) := by
  have hcalm : ∀ c, isCalm c = true → Text.isBlank c = false :=
    fun _ => Text.isBlank_eq_false isCalm (by decide) (by decide)
  have hplain : ∀ kind : TokenKind, kind = .number ∨ kind = .name ∨ kind = .other →
      kind ≠ .comment ∧ kind.isSign = false := by
    rintro _ (rfl | rfl | rfl) <;> decide
  have hmasked : c.masked = c.char := Cell.masked_of_code hcode
  have hcases := codeToken_cases c cs
  generalize codeToken c cs = token at hcases ⊢
  obtain ⟨kind, size⟩ := token
  cases hcases with
  | @calm kind v r hkind _ e hv =>
    obtain ⟨hcomment, hsign⟩ := hplain kind hkind
    rw [e, List.take_left' rfl]
    exact shows_of_solid hcomment hsign (List.forall_mem_map.mpr fun g hg => hcalm _ (hv g hg))
  | mark hp =>
    rw [List.take_succ_cons, List.take_zero, List.map_singleton, hmasked]
    exact shows_mark hp
  | @operator v r ho =>
    obtain ⟨e, hv⟩ := takes_operatorToken ho
    rw [e, List.take_left' rfl]
    exact shows_operator (List.forall_mem_map.mpr hv)
  | other =>
    rw [List.take_succ_cons, List.take_zero, List.map_singleton, hmasked]
    exact shows_of_solid (by decide) rfl (List.forall_mem_singleton.mpr hblank)

theorem shows_comment {first : Cell} (hregion : first.region = .lineComment ∨ first.region =
    .blockComment) {taken : Nat} {last : Char} {rest : List Cell}
      (hline : ∀ g ∈ first :: rest.take (commentLength first.region taken last rest),
      g.char ≠ '\n') :
    Shows .comment
      ((first :: rest.take (commentLength first.region taken last rest)).map Cell.masked) := by
  have hall : ∀ g ∈ first :: rest.take (commentLength first.region taken last rest), g.region =
      first.region :=
    List.forall_mem_cons.mpr ⟨rfl, commentLength_region first.region taken last rest⟩
  refine ⟨fun _ => List.forall_mem_map.mpr fun g hg => ?_, fun h => absurd rfl h, fun h =>
    absurd h (by decide), fun h => absurd h (by decide)⟩
  rw [Cell.masked, if_neg (hline g hg), hall g hg]
  rcases hregion with e | e <;> rw [e]

theorem shows_tokenAt {m : Mode} {c : Char} {cs : Text} (ht : Text.OneLine (c :: cs))
    (hblank : ((m.step c cs.head?).1.isCode && Text.isBlank c) = false) {kind : TokenKind} {n : Nat}
    (e : tokenAt (m.step c cs.head?).1 (cellsFrom (m.step c cs.head?).2 cs) = (kind, n)) :
    Shows kind ((cellsUpTo m (cs.drop n).head? (c :: cs.take n)).map Cell.masked) := by
  have hcells : cellsUpTo m (cs.drop n).head? (c :: cs.take n) = (cellsFrom m (c :: cs)).take
      (n + 1) := by
    rw [cellsFrom_take]
    rfl
  have hin {g : Cell} (hg : g ∈ (cellsFrom m (c :: cs)).take (n + 1)) : g ∈ cellsFrom m (c :: cs) :=
    List.mem_of_mem_take hg
  have hline := cellsFrom_oneLine ht m
  have hsolid : ∀ g ∈ cellsFrom m (c :: cs), Text.isBlank g.masked = true → g.char ≠ '\n' ∧
      g.region.isLiteral = false :=
    fun _ => region_of_blank
  rw [hcells]
  have hchar := m.step_char c cs.head?
  rw [cellsFrom] at hin hline hsolid ⊢
  rw [List.take_succ_cons] at hin ⊢
  generalize (m.step c cs.head?).1 = first at e hblank hin hline hsolid hchar ⊢
  generalize (m.step c cs.head?).2 = next at e hin hline hsolid ⊢
  rw [tokenAt] at e
  split at e
  case h_1 hregion =>
    obtain ⟨rfl, rfl⟩ := Prod.mk.inj e
    exact shows_comment (.inl hregion) fun g hg => hline g (hin hg)
  case h_2 hregion =>
    obtain ⟨rfl, rfl⟩ := Prod.mk.inj e
    exact shows_comment (.inr hregion) fun g hg => hline g (hin hg)
  case h_3 q hregion =>
    obtain ⟨rfl, rfl⟩ := Prod.mk.inj e
    have hall : ∀ g ∈ first :: (cellsFrom next cs).take (literalLength (cellsFrom next cs)),
        g.region.isLiteral = true :=
      List.forall_mem_cons.mpr
        ⟨congrArg Region.isLiteral hregion, literalLength_region (cellsFrom next cs)⟩
    refine shows_of_solid (by decide) rfl (List.forall_mem_map.mpr fun g hg => Bool.eq_false_iff.mpr
      fun hb => ?_)
    have := (hsolid g (hin hg) hb).2
    rw [hall g hg] at this
    cases this
  case h_4 hregion =>
    have hfirst : Text.isBlank first.char = false := by
      rw [hchar]
      rw [Cell.isCode, hregion] at hblank
      exact hblank
    have hshows := shows_codeToken hregion hfirst (cellsFrom next cs)
    have hpos := codeToken_pos first (cellsFrom next cs)
    generalize codeToken first (cellsFrom next cs) = token at e hshows hpos
    obtain ⟨kind', size⟩ := token
    obtain ⟨rfl, rfl⟩ := Prod.mk.inj e
    obtain ⟨size, rfl⟩ := Nat.exists_eq_succ_of_ne_zero hpos
    exact hshows

end PineTools.Layout
