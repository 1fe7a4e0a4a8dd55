import PineTools.Layout.Token
import PineTools.Proofs.Pattern.Readers
import PineTools.Proofs.Scan.Parts
import PineTools.Proofs.Scan.White

/-! Tokens of a line. A token of code consists of characters that are read as code, a literal or
comment token stops where the scanner is back in code or at the end of the line. Only an operator
ends with a slash or starts with a slash or a star, and only a token of one character ends with a
backslash or starts with a quote. -/
namespace PineTools.Layout

open Reader

/-- Characters by which the scanner may leave code, the backslash before a quote, and the blank that
a comment shows. -/
def restless : List Char := ['/', '*', '\\', '"', Char.ofNat 39, ' ', '\t']

def isCalm (c : Char) : Bool := !restless.contains c

theorem isCalm_of (p : Char → Bool) (h : ∀ c ∈ restless, p c = false) {c : Char} (hc : p c = true) :
    isCalm c = true := by
  rw [isCalm, Bool.not_eq_true', ← Bool.not_eq_true, List.contains_iff_mem]
  intro m
  rw [h c m] at hc
  cases hc

theorem isCalm_of_isDecimal {c : Char} (h : Text.isDecimal c = true) :
    isCalm c = true := isCalm_of _ (by decide) h

theorem isCalm_of_isWord {c : Char} (h : Text.isWord c = true) :
    isCalm c = true := isCalm_of _ (by decide) h

theorem takes_digits : Takes isCalm (run Text.isDecimal : Reader Cell (List Cell)) :=
  (takes_run _).mono fun _ => isCalm_of_isDecimal

theorem takes_digits1 : Takes isCalm (run1 Text.isDecimal : Reader Cell (List Cell)) :=
  (takes_run1 _).mono fun _ => isCalm_of_isDecimal

theorem takes_exponent : Takes isCalm (do
    let mark ← one fun c => c == 'e' || c == 'E'
    let sign ← optional (one fun c => c == '+' || c == '-')
    let digits ← run1 Text.isDecimal
    return mark :: (sign.toList ++ digits) : Reader Cell (List Cell)) := by
  intro gs v rest h
  obtain ⟨mark, rest₁, hm, h⟩ := bind_eq_some.mp h
  obtain ⟨sign, rest₂, hs, h⟩ := bind_eq_some.mp h
  obtain ⟨digits, rest₃, hd, h⟩ := bind_eq_some.mp h
  cases pure_eq_some.mp h
  obtain ⟨rfl, mark_ok⟩ := one_eq_some.mp hm
  obtain ⟨rfl, digits_ok⟩ := takes_digits1 hd
  have hsign : rest₁ = sign.toList ++ (digits ++ rest) ∧ ∀ g ∈ sign.toList,
      isCalm (Glyph.seen g) = true := by
    rcases optional_eq_some.mp hs with ⟨g, rest', hg, e⟩ | ⟨-, e⟩
    · cases e
      obtain ⟨rfl, sign_ok⟩ := one_eq_some.mp hg
      exact ⟨rfl, List.forall_mem_singleton.mpr
        (isCalm_of (fun c => c == '+' || c == '-') (by decide) sign_ok)⟩
    · cases e
      exact ⟨rfl, List.forall_mem_nil _⟩
  obtain ⟨rfl, sign_ok⟩ := hsign
  rw [List.cons_append, List.append_assoc]
  exact ⟨rfl, List.forall_mem_cons.mpr
    ⟨isCalm_of (fun c => c == 'e' || c == 'E') (by decide) mark_ok,
      List.forall_mem_append.mpr ⟨sign_ok, digits_ok⟩⟩⟩

theorem isCalm_of_point (c : Char) (h : (c == '.') = true) :
    isCalm c = true := isCalm_of (· == '.') (by decide) h

theorem takes_numberToken : Takes isCalm numberToken := by
  refine Takes.orElse ?_ (takes_cons takes_digits1 isCalm_of_point)
  intro gs v rest h
  obtain ⟨whole, rest₁, hw, h⟩ := bind_eq_some.mp h
  obtain ⟨fraction, rest₂, hf, h⟩ := bind_eq_some.mp h
  obtain ⟨exponent, rest₃, he, h⟩ := bind_eq_some.mp h
  cases pure_eq_some.mp h
  obtain ⟨rfl, whole_ok⟩ := takes_digits1 hw
  obtain ⟨rfl, fraction_ok⟩ := (takes_cons takes_digits isCalm_of_point).optional hf
  obtain ⟨rfl, exponent_ok⟩ := takes_exponent.optional he
  constructor
  · simp only [List.append_assoc]
  · exact List.forall_mem_append.mpr ⟨List.forall_mem_append.mpr ⟨whole_ok, fraction_ok⟩,
      exponent_ok⟩

theorem takes_name : Takes isCalm (name : Reader Cell (List Cell)) :=
  takes_cons ((takes_run _).mono fun _ => isCalm_of_isWord) fun _ h => isCalm_of Text.isNameStart
    (by decide) h

theorem takes_nameToken : Takes isCalm nameToken := by
  intro gs v rest h
  obtain ⟨first, rest₁, hn, h⟩ := bind_eq_some.mp h
  obtain ⟨parts, rest₂, hp, h⟩ := bind_eq_some.mp h
  cases pure_eq_some.mp h
  obtain ⟨rfl, first_ok⟩ := takes_name hn
  obtain ⟨rfl, parts_ok⟩ :=
    takes_many (takes_cons takes_name isCalm_of_point) (map_eq_some.mpr ⟨parts, _, hp, rfl⟩)
  rw [List.append_assoc]
  exact ⟨rfl, List.forall_mem_append.mpr ⟨first_ok, parts_ok⟩⟩

theorem takes_colorToken : Takes isCalm colorToken :=
  takes_cons ((takes_run1 _).mono fun _ h => isCalm_of isHexDigit (by decide) h)
    fun _ h => isCalm_of (· == '#') (by decide) h

theorem numberToken_ne_nil {gs v rest : List Cell} (h : numberToken gs = some (v, rest)) :
    v ≠ [] := by
  rcases orElse_eq_some.mp h with h | ⟨-, h⟩
  · obtain ⟨whole, rest₁, hw, h⟩ := bind_eq_some.mp h
    obtain ⟨fraction, rest₂, -, h⟩ := bind_eq_some.mp h
    obtain ⟨exponent, rest₃, -, h⟩ := bind_eq_some.mp h
    cases pure_eq_some.mp h
    rw [List.append_assoc]
    exact List.append_ne_nil_of_left_ne_nil (run1_eq_some.mp hw).1 _
  · obtain ⟨point, rest₁, -, h⟩ := bind_eq_some.mp h
    obtain ⟨digits, rest₂, -, h⟩ := bind_eq_some.mp h
    cases pure_eq_some.mp h
    exact List.cons_ne_nil _ _

theorem nameToken_ne_nil {gs v rest : List Cell} (h : nameToken gs = some (v, rest)) : v ≠ [] := by
  obtain ⟨first, rest₁, hn, h⟩ := bind_eq_some.mp h
  obtain ⟨parts, rest₂, -, h⟩ := bind_eq_some.mp h
  cases pure_eq_some.mp h
  obtain ⟨g, rest₃, -, hn⟩ := bind_eq_some.mp hn
  obtain ⟨gs', rest₄, -, hn⟩ := bind_eq_some.mp hn
  cases pure_eq_some.mp hn
  exact List.cons_ne_nil _ _

theorem colorToken_ne_nil {gs v rest : List Cell} (h : colorToken gs = some (v, rest)) :
    v ≠ [] := by
  obtain ⟨hash, rest₁, -, h⟩ := bind_eq_some.mp h
  obtain ⟨digits, rest₂, -, h⟩ := bind_eq_some.mp h
  cases pure_eq_some.mp h
  exact List.cons_ne_nil _ _

def isSign (c : Char) : Bool := "-+*/%<>=?:!".toList.contains c

theorem takes_operatorToken : Takes isSign operatorToken := by
  refine Takes.orElse (takes_firstOf fun x hx => ?_) ?_
  · obtain ⟨w, hw, rfl⟩ := List.mem_map.mp hx
    refine (takes_exactly w.toList).mono fun c hc => ?_
    have h : ∀ w ∈ longOperators, ∀ c ∈ w.toList, isSign c = true := by decide
    exact h w hw c (List.contains_iff_mem.mp hc)
  · intro gs v rest h
    obtain ⟨g, rest', hg, e⟩ := map_eq_some.mp h
    cases e
    obtain ⟨rfl, sign_ok⟩ := one_eq_some.mp hg
    refine ⟨rfl, List.forall_mem_singleton.mpr ?_⟩
    have h : ∀ c ∈ "-+*/%<>=?:".toList, isSign c = true := by decide
    exact h _ (List.contains_iff_mem.mp sign_ok)

theorem operatorToken_text {gs v rest : List Cell} (h : operatorToken gs = some (v, rest)) :
    (∃ w ∈ longOperators, seenText v = w.toList) ∨ ∃ c, isOperatorChar c = true ∧
    seenText v = [c] := by
  rcases orElse_eq_some.mp h with h | ⟨-, h⟩
  · obtain ⟨x, hx, h⟩ := firstOf_eq_some h
    obtain ⟨w, hw, rfl⟩ := List.mem_map.mp hx
    exact .inl ⟨w, hw, (exactly_eq_some.mp h).2⟩
  · obtain ⟨g, rest', hg, e⟩ := map_eq_some.mp h
    cases e
    exact .inr ⟨Glyph.seen g, (one_eq_some.mp hg).2, rfl⟩

theorem operatorToken_one {c : Cell} (h : isOperatorChar (Glyph.seen c) = true) (rest : List Cell) :
    operatorToken (c :: rest) ≠ none := by
  intro e
  have hone := (orElse_eq_none.mp e).2
  rw [Option.eq_none_iff_forall_ne_some] at hone
  exact hone ([c], rest) (map_eq_some.mpr ⟨c, rest, one_eq_some.mpr ⟨rfl, h⟩, rfl⟩)

inductive CodeToken (c : Cell) (rest : List Cell) : TokenKind → Nat → Prop
  | calm {kind : TokenKind} {v r : List Cell} : kind = .number ∨ kind = .name ∨
  kind = .other → v ≠ [] →
      c :: rest = v ++ r → (∀ g ∈ v, isCalm (Glyph.seen g) = true) → CodeToken c rest kind v.length
  | mark {kind : TokenKind} : punctuation? c.char = some kind → CodeToken c rest kind 1
  | operator {v r : List Cell} : operatorToken (c :: rest) = some (v, r) →
  CodeToken c rest .operator v.length
  | other : operatorToken (c :: rest) = none → CodeToken c rest .other 1

theorem codeToken_cases (c : Cell) (rest : List Cell) :
    CodeToken c rest (codeToken c rest).1 (codeToken c rest).2 := by
  unfold codeToken
  dsimp only
  generalize hn : numberToken (c :: rest) = number
  generalize hm : nameToken (c :: rest) = name
  generalize hc : colorToken (c :: rest) = color
  generalize hp : punctuation? c.char = mark
  generalize ho : operatorToken (c :: rest) = operator
  cases number with
  | some r =>
    have h := takes_numberToken hn
    exact .calm (.inl rfl) (numberToken_ne_nil hn) h.1 h.2
  | none =>
    cases name with
    | some r =>
      have h := takes_nameToken hm
      exact .calm (.inr (.inl rfl)) (nameToken_ne_nil hm) h.1 h.2
    | none =>
      cases color with
      | some r =>
        have h := takes_colorToken hc
        exact .calm (.inr (.inr rfl)) (colorToken_ne_nil hc) h.1 h.2
      | none =>
        cases mark with
        | some kind => exact .mark hp
        | none =>
          cases operator with
          | some r => exact .operator ho
          | none => exact .other ho

end PineTools.Layout
