import PineTools.Construct.Call
import PineTools.Proofs.Pattern.Matches

namespace PineTools

open Reader

variable {α : Type} [Glyph α]

theorem unsignedNumber_eq_some {gs v rest : List α} (h : unsignedNumber gs = some (v, rest)) :
    gs = v ++ rest ∧ ∃ init x, v = init ++ [x] ∧ Text.isDecimal (Glyph.seen x) = true := by
  obtain ⟨whole, rest₁, hw, h⟩ := bind_eq_some.mp h
  obtain ⟨fraction, rest₂, hf, h⟩ := bind_eq_some.mp h
  cases pure_eq_some.mp h
  have hlast {v gs rest : List α} (h : run1 Text.isDecimal gs = some (v, rest)) :
      ∃ init x, v = init ++ [x] ∧ Text.isDecimal (Glyph.seen x) = true := by
    obtain ⟨-, hall⟩ := takes_run1 _ h
    rcases List.eq_nil_or_concat v with rfl | ⟨init, x, rfl⟩
    · exact absurd rfl (run1_eq_some.mp h).1
    · rw [List.concat_eq_append] at hall ⊢
      exact ⟨init, x, rfl, hall x (List.mem_append_right _ (List.mem_singleton_self x))⟩
  obtain ⟨rfl, -⟩ := takes_run1 _ hw
  rcases optional_eq_some.mp hf with ⟨b, rest', hb, e⟩ | ⟨-, e⟩
  · cases e
    obtain ⟨point, rest₃, hp, hb⟩ := bind_eq_some.mp hb
    obtain ⟨digits, rest₄, hd, hb⟩ := bind_eq_some.mp hb
    cases pure_eq_some.mp hb
    obtain ⟨rfl, -⟩ := one_eq_some.mp hp
    obtain ⟨rfl, -⟩ := takes_run1 _ hd
    obtain ⟨init, x, rfl, hx⟩ := hlast hd
    refine ⟨by simp, whole ++ point :: init, x, by simp, hx⟩
  · cases e
    obtain ⟨init, x, rfl, hx⟩ := hlast hw
    exact ⟨by simp, init, x, by simp, hx⟩

theorem takes_unsignedNumber : Takes (fun c => Text.isDecimal c || c == '.')
    (unsignedNumber : Reader α (List α)) := by
  intro gs v rest h
  obtain ⟨whole, rest₁, hw, h⟩ := bind_eq_some.mp h
  obtain ⟨fraction, rest₂, hf, h⟩ := bind_eq_some.mp h
  cases pure_eq_some.mp h
  have hdigits : Takes (fun c => Text.isDecimal c || c == '.')
      (run1 Text.isDecimal : Reader α (List α)) :=
    (takes_run1 _).mono fun _ hc => Bool.or_eq_true_iff.mpr (.inl hc)
  obtain ⟨rfl, hwhole⟩ := hdigits hw
  obtain ⟨rfl, hfraction⟩ :=
    (takes_cons hdigits fun _ hc => Bool.or_eq_true_iff.mpr (.inr hc)).optional hf
  rw [List.append_assoc]
  exact ⟨rfl, List.forall_mem_append.mpr ⟨hwhole, hfraction⟩⟩

theorem quotedLiteral_eq_some {q : Quote} {gs v rest : List α}
    (h : quotedLiteral q gs = some (v, rest)) :
    gs = v ++ rest ∧ ∃ x inner y, v = x :: (inner ++ [y]) ∧ Glyph.seen x = q.char ∧
    Glyph.seen y = q.char ∧
      ∀ g ∈ inner, Glyph.seen g ≠ q.char ∧ Glyph.seen g ≠ '\n' := by
  obtain ⟨x, rest₁, hx, h⟩ := bind_eq_some.mp h
  obtain ⟨inner, rest₂, hi, h⟩ := bind_eq_some.mp h
  obtain ⟨y, rest₃, hy, h⟩ := bind_eq_some.mp h
  cases pure_eq_some.mp h
  obtain ⟨rfl, hxq⟩ := one_eq_some.mp hx
  obtain ⟨rfl, hall⟩ := takes_run _ hi
  obtain ⟨rfl, hyq⟩ := one_eq_some.mp hy
  refine ⟨by simp, x, inner, y, rfl, beq_iff_eq.mp hxq, beq_iff_eq.mp hyq, fun g hg => ?_⟩
  have := hall g hg
  rw [Bool.and_eq_true, bne_iff_ne, bne_iff_ne] at this
  exact this

theorem anyLiteral_eq_some {gs v rest : List α} (h : anyLiteral gs = some (v, rest)) :
    ∃ q, quotedLiteral q gs = some (v, rest) := by
  rcases orElse_eq_some.mp h with h | ⟨-, h⟩
  · exact ⟨_, h⟩
  · exact ⟨_, h⟩

theorem inputWithoutComma_eq_some {before : Option Char} {gs rest : List α}
    {v : InputWithoutComma α} (h : inputWithoutComma before gs = some (v, rest)) :
    gs = v.before ++ (v.number ++ (v.gap ++ (v.title ++ rest))) ∧
      (∃ init x, v.number = init ++ [x] ∧ Text.isDecimal (Glyph.seen x) = true) ∧
      v.gap ≠ [] ∧ (∀ g ∈ v.gap, Text.isBlank (Glyph.seen g) = true) ∧
      ∃ y ys, ∃ q : Quote, v.title = y :: ys ∧ Glyph.seen y = q.char := by
  obtain ⟨-, h⟩ := Pattern.fresh_eq_some.mp h
  obtain ⟨call, rest₁, hcall, h⟩ := bind_eq_some.mp h
  obtain ⟨gap, rest₂, hgap, h⟩ := bind_eq_some.mp h
  obtain ⟨paren, rest₃, hparen, h⟩ := bind_eq_some.mp h
  obtain ⟨inner, rest₄, hinner, h⟩ := bind_eq_some.mp h
  obtain ⟨sign, rest₅, hsign, h⟩ := bind_eq_some.mp h
  obtain ⟨u, rest₆, hguard, h⟩ := bind_eq_some.mp h
  obtain ⟨-, e⟩ := guard_eq_some.mp hguard
  cases e
  obtain ⟨digits, rest₇, hdigits, h⟩ := bind_eq_some.mp h
  obtain ⟨between, rest₈, hbetween, h⟩ := bind_eq_some.mp h
  obtain ⟨title, rest₉, htitle, h⟩ := bind_eq_some.mp h
  cases pure_eq_some.mp h
  obtain ⟨rfl, -⟩ := exactly_eq_some.mp hcall
  obtain ⟨rfl, -⟩ := takes_run _ hgap
  obtain ⟨rfl, -⟩ := one_eq_some.mp hparen
  obtain ⟨rfl, -⟩ := takes_run _ hinner
  obtain ⟨rfl, -⟩ := takes_run _ hsign
  obtain ⟨rfl, init, x, rfl, hx⟩ := unsignedNumber_eq_some hdigits
  obtain ⟨rfl, hblank⟩ := takes_run1 _ hbetween
  obtain ⟨q, htitle⟩ := anyLiteral_eq_some htitle
  obtain ⟨rfl, y, ys, y', rfl, hy, -⟩ := quotedLiteral_eq_some htitle
  refine ⟨by simp, ⟨sign ++ init, x, by
    simp, hx⟩, (run1_eq_some.mp hbetween).1, hblank, y, ys ++ [y'], q, rfl, hy⟩

/-- The parenthesis of an input call stands before its number, on the same line. -/
theorem inputWithoutComma_paren {before : Option Char} {gs rest : List α}
    {v : InputWithoutComma α} (h : inputWithoutComma before gs = some (v, rest)) :
    ∃ call paren inner, v.before = call ++ paren :: inner ∧ Glyph.seen paren = '(' ∧
      ∀ g ∈ inner ++ v.number, Glyph.seen g ≠ '\n' := by
  obtain ⟨-, h⟩ := Pattern.fresh_eq_some.mp h
  obtain ⟨call, rest₁, -, h⟩ := bind_eq_some.mp h
  obtain ⟨gap, rest₂, -, h⟩ := bind_eq_some.mp h
  obtain ⟨paren, rest₃, hparen, h⟩ := bind_eq_some.mp h
  obtain ⟨inner, rest₄, hinner, h⟩ := bind_eq_some.mp h
  obtain ⟨sign, rest₅, hsign, h⟩ := bind_eq_some.mp h
  obtain ⟨u, rest₆, -, h⟩ := bind_eq_some.mp h
  obtain ⟨digits, rest₇, hdigits, h⟩ := bind_eq_some.mp h
  obtain ⟨between, rest₈, -, h⟩ := bind_eq_some.mp h
  obtain ⟨title, rest₉, -, h⟩ := bind_eq_some.mp h
  cases pure_eq_some.mp h
  have hline {p : Char → Bool} {x : Reader α (List α)} (hx : Takes p x) (hp : p '\n' = false)
      {gs v rest : List α} (e : x gs = some (v, rest)) : ∀ g ∈ v, Glyph.seen g ≠ '\n' :=
    fun g hg k => Bool.noConfusion (hp.symm.trans (k ▸ (hx e).2 g hg))
  refine ⟨call ++ gap, paren, inner, rfl, beq_iff_eq.mp (one_eq_some.mp hparen).2, ?_⟩
  simp only [List.forall_mem_append]
  exact ⟨hline (takes_run _) (by decide) hinner, hline (takes_run _) (by decide) hsign,
    hline takes_unsignedNumber (by decide) hdigits⟩

theorem dottedName_eq_some {gs v rest : List α} (h : dottedName gs = some (v, rest)) :
    gs = v ++ rest ∧ (∃ x xs, v = x :: xs ∧ Text.isNameStart (Glyph.seen x) = true) ∧
      (∀ g ∈ v.tail, Text.isWordOrDot (Glyph.seen g) = true) ∧ ∀ g gs', rest = g :: gs' →
      Text.isWordOrDot (Glyph.seen g) = false := by
  obtain ⟨x, rest₁, hx, h⟩ := bind_eq_some.mp h
  obtain ⟨xs, rest₂, hxs, h⟩ := bind_eq_some.mp h
  cases pure_eq_some.mp h
  obtain ⟨rfl, hx'⟩ := one_eq_some.mp hx
  obtain ⟨e, hall⟩ := takes_run _ hxs
  obtain ⟨-, hrest⟩ := run_eq_some.mp hxs
  refine ⟨by rw [e, List.cons_append], ⟨x, xs, rfl, hx'⟩, hall, fun g gs' hg => ?_⟩
  have := List.head?_dropWhile_not (fun g : α => Text.isWordOrDot (Glyph.seen g)) rest₁
  rw [← hrest, hg] at this
  simpa using this

theorem simpleCall_eq_some {before : Option Char} {gs rest : List α} {v : SimpleCall α}
    (h : simpleCall before gs = some (v, rest)) :
    ∃ x y, gs = v.name ++ (v.gap ++ x :: (v.args ++ y :: rest)) ∧ v.name ≠ [] ∧ Glyph.seen x = '(' ∧
    Glyph.seen y = ')' ∧
      ∀ g ∈ v.args, Glyph.seen g ≠ '(' ∧ Glyph.seen g ≠ ')' ∧ Glyph.seen g ≠ '\n' := by
  obtain ⟨-, h⟩ := Pattern.fresh_eq_some.mp h
  obtain ⟨name, rest₁, hname, h⟩ := bind_eq_some.mp h
  obtain ⟨gap, rest₂, hgap, h⟩ := bind_eq_some.mp h
  obtain ⟨x, rest₃, hx, h⟩ := discard_bind_eq_some.mp h
  obtain ⟨args, rest₄, hargs, h⟩ := bind_eq_some.mp h
  obtain ⟨y, rest₅, hy, h⟩ := discard_bind_eq_some.mp h
  obtain ⟨arrow, rest₆, harrow, h⟩ := bind_eq_some.mp h
  cases pure_eq_some.mp h
  cases harrow
  obtain ⟨rfl, ⟨g, gs', rfl, -⟩, -⟩ := dottedName_eq_some hname
  obtain ⟨rfl, -⟩ := takes_run _ hgap
  obtain ⟨rfl, hx'⟩ := one_eq_some.mp hx
  obtain ⟨rfl, hall⟩ := takes_run _ hargs
  obtain ⟨rfl, hy'⟩ := one_eq_some.mp hy
  refine ⟨x, y, by
    simp, List.cons_ne_nil g gs', beq_iff_eq.mp hx', beq_iff_eq.mp hy', fun a ha => ?_⟩
  have := hall a ha
  simp only [Bool.and_eq_true, bne_iff_ne] at this
  exact ⟨this.1.1, this.1.2, this.2⟩

theorem tokenGap_eq_some {before : Option Char} {gs rest : List α} {u : Unit}
    (h : tokenGap before gs = some (u, rest)) :
    ∃ x gap y rest', gs = x :: (gap ++ rest) ∧ rest = y :: rest' ∧ isTokenEdge (Glyph.seen x) =
      true ∧ gap ≠ [] ∧
      (∀ g ∈ gap, Text.isBlank (Glyph.seen g) = true) ∧ isTokenEdge (Glyph.seen y) = true := by
  obtain ⟨x, rest₁, hx, h⟩ := discard_bind_eq_some.mp h
  obtain ⟨gap, rest₂, hgap, h⟩ := discard_bind_eq_some.mp h
  obtain ⟨hy, e⟩ := ahead_eq_some.mp h
  cases e
  obtain ⟨⟨y, rest'⟩, hy⟩ := Option.isSome_iff_exists.mp hy
  obtain ⟨rfl, hx'⟩ := one_eq_some.mp hx
  obtain ⟨rfl, hblank⟩ := takes_run1 _ hgap
  obtain ⟨rfl, hy'⟩ := one_eq_some.mp hy
  exact ⟨x, gap, y, rest', rfl, rfl, hx', (run1_eq_some.mp hgap).1, hblank, hy'⟩

theorem callOf_eq_some {name : Text} {before : Option Char} {gs rest : List α} {u : Unit}
    (h : callOf name before gs = some (u, rest)) :
    ∃ called, gs = called ++ rest ∧ seenText called = name ∧
      ∃ gap x rest', rest = gap ++ x :: rest' ∧ (∀ g ∈ gap, Text.isBlank (Glyph.seen g) = true) ∧
      Glyph.seen x = '(' := by
  obtain ⟨-, h⟩ := Pattern.fresh_eq_some.mp h
  obtain ⟨called, rest₁, hcalled, h⟩ := discard_bind_eq_some.mp h
  obtain ⟨hopen, e⟩ := ahead_eq_some.mp h
  cases e
  obtain ⟨⟨x, rest'⟩, hopen⟩ := Option.isSome_iff_exists.mp hopen
  obtain ⟨gap, rest₂, hgap, hx⟩ := discard_bind_eq_some.mp hopen
  obtain ⟨rfl, hseen⟩ := exactly_eq_some.mp hcalled
  obtain ⟨rfl, hblank⟩ := takes_run _ hgap
  obtain ⟨rfl, hx'⟩ := one_eq_some.mp hx
  exact ⟨called, rfl, hseen, gap, x, rest', rfl, hblank, beq_iff_eq.mp hx'⟩

end PineTools
