import PineTools.Proofs.Layout.Masks
import PineTools.Proofs.Pattern.Progress

/-! Tokens read off the characters. The patterns of code tokens take no character that ends code,
apart from the first one of an operator. So they take the same cells of a line whether the comments
and literals in it are masked or not. -/
namespace PineTools

def Cell.asCode (c : Cell) : Cell := ⟨c.char, .code, false⟩

namespace Layout

open Reader

section Halting

variable {c : Char} (hc : isCalm c = false)
include hc

theorem restless_of {p : Char → Bool} (h : ∀ d, p d = true → isCalm d = true) : p c = false :=
  Bool.eq_false_iff.mpr fun hp => Bool.eq_false_iff.mp hc (h c hp)

theorem haltsAt_digits : HaltsAt c (run Text.isDecimal : Reader Cell (List Cell)) :=
  haltsAt_run (restless_of hc fun _ => isCalm_of_isDecimal)

theorem haltsAt_digits1 : HaltsAt c (run1 Text.isDecimal : Reader Cell (List Cell)) :=
  haltsAt_run1 (restless_of hc fun _ => isCalm_of_isDecimal)

theorem haltsAt_point :
    HaltsAt c (one (· == '.') : Reader Cell Cell) := haltsAt_one (restless_of hc isCalm_of_point)

theorem haltsAt_numberToken : HaltsAt c numberToken := by
  have hmark : HaltsAt c (one fun c => c == 'e' || c == 'E' : Reader Cell Cell) :=
    haltsAt_one (restless_of hc fun _ => isCalm_of (fun c => c == 'e' || c == 'E') (by decide))
  have hsign : HaltsAt c (one fun c => c == '+' || c == '-' : Reader Cell Cell) :=
    haltsAt_one (restless_of hc fun _ => isCalm_of (fun c => c == '+' || c == '-') (by decide))
  refine HaltsAt.orElse ((haltsAt_digits1 hc).bind fun whole => ?_) ?_
  · have hfraction := ((haltsAt_point hc).bind fun point => (haltsAt_digits hc).bind fun digits =>
      haltsAt_pure (point :: digits)).optional
    refine hfraction.bind fun fraction => ?_
    have hexponent :=
      (hmark.bind fun mark => hsign.optional.bind fun sign => (haltsAt_digits1 hc).bind
        fun digits =>
      haltsAt_pure (mark :: (sign.toList ++ digits))).optional
    exact hexponent.bind fun exponent => haltsAt_pure _
  · exact (haltsAt_point hc).bind fun point => (haltsAt_digits1 hc).bind fun digits =>
      haltsAt_pure _

theorem haltsAt_nameToken : HaltsAt c nameToken := by
  have hname : HaltsAt c (name : Reader Cell (List Cell)) :=
    haltsAt_name (restless_of hc fun _ => isCalm_of Text.isNameStart (by decide))
      (restless_of hc fun _ => isCalm_of_isWord)
  refine hname.bind fun first => HaltsAt.bind (HaltsAt.many ?_ ?_) fun parts => haltsAt_pure _
  · exact (haltsAt_point hc).bind fun point => hname.bind fun part => haltsAt_pure _
  · exact (eats_one _).bind fun point => eats_name.trims.bind fun part => trims_pure _

theorem haltsAt_colorToken : HaltsAt c colorToken :=
  (haltsAt_one (restless_of hc fun _ => isCalm_of (· == '#') (by decide))).bind fun _ =>
    (haltsAt_run1 (restless_of hc fun _ => isCalm_of isHexDigit (by decide))).bind fun _ =>
      haltsAt_pure _

/-- An operator may start with a character at which other tokens end, but holds none behind the
first. -/
theorem haltsBehind_operatorToken : HaltsBehind c operatorToken := by
  have hlong : ∀ w ∈ longOperators, ∀ d ∈ w.toList.tail, isCalm d = true := by decide
  refine (haltsBehind_firstOf fun r hr => ?_).orElse ?_
  · obtain ⟨w, hw, rfl⟩ := List.mem_map.mp hr
    exact haltsBehind_exactly fun hmem => Bool.eq_false_iff.mp hc (hlong w hw c hmem)
  · exact haltsBehind_one fun g => haltsAt_pure [g]

end Halting

/-- A cell that ends a run of code: what it shows and the character itself end a token. -/
structure EndsCode (g : Cell) : Prop where
  region : g.region ≠ .code
  shown : isCalm (Glyph.seen g) = false
  char : isCalm (Glyph.seen g.asCode) = false

theorem exists_code_run (b : Bool) {t : Text} (ht : Text.OneLine t) :
    ∃ code rest, cellsFrom (.code b) t = code ++ rest ∧
    (∀ g ∈ code, g.region = .code ∧ g.asCode = g) ∧
      ∀ g, rest.head? = some g → EndsCode g := by
  induction t generalizing b with
  | nil => exact ⟨[], [], rfl, List.forall_mem_nil _, fun g hg => absurd hg (by simp)⟩
  | cons c cs ih =>
    have hn : c ≠ '\n' := ht.head
    rw [cellsFrom, Mode.step]
    have ends {g : Cell} {next : List Cell} (h : EndsCode g) : ∃ code rest, g :: next =
      code ++ rest ∧
        (∀ g ∈ code, g.region = .code ∧ g.asCode = g) ∧ ∀ g, rest.head? = some g → EndsCode g :=
      ⟨[], _, rfl, List.forall_mem_nil _, fun g' hg => Option.some_inj.mp hg ▸ h⟩
    obtain ⟨rfl, -, e⟩ | ⟨rfl, -, e⟩ | ⟨q, -, hq, e⟩ | ⟨-, -, e⟩ := Mode.stepCode_cases b c cs.head?
    · rw [e]
      exact ends ⟨by decide, by decide, by decide⟩
    · rw [e]
      exact ends ⟨by decide, by decide, by decide⟩
    · rw [e]
      obtain rfl := Quote.ofChar?_eq_some hq
      exact ends ⟨Region.noConfusion, by cases q <;> decide, by cases q <;> decide⟩
    · rw [e]
      obtain ⟨code, rest, hcells, hcode, hrest⟩ := ih (c == '\\') ht.tail
      exact ⟨_ :: code, rest, congrArg _ hcells, List.forall_mem_cons.mpr ⟨⟨rfl, rfl⟩, hcode⟩,
        hrest⟩

def extent (r : Reader Cell (List Cell)) (line : List Cell) : Option Nat :=
  (r line).map fun p => p.1.length

theorem extent_asCode {b : Bool} {t : Text} (ht : Text.OneLine t) {c : Cell} {cs : List Cell}
    (e : cellsFrom (.code b) t = c :: cs) (hc : c.region = .code) {r : Reader Cell (List Cell)}
    (hr : ∀ d, isCalm d = false → HaltsBehind d r) : extent r ((c :: cs).map Cell.asCode) =
      extent r (c :: cs) := by
  obtain ⟨code, rest, hcells, hcode, hrest⟩ := exists_code_run b ht
  rw [e] at hcells
  have hsame : code.map Cell.asCode = code := (List.map_congr_left fun g hg => (hcode g hg).2).trans
    (List.map_id _)
  rw [hcells, List.map_append, hsame]
  cases rest with
  | nil => rfl
  | cons g rest =>
    have hends := hrest g rfl
    cases code with
    | nil =>
      obtain ⟨rfl, rfl⟩ := List.cons.inj hcells
      exact absurd hc hends.region
    | cons d code =>
      rw [List.map_cons, List.cons_append, List.cons_append, extent, extent,
        hr _ hends.shown d code g rest rfl, hr _ hends.char d code g.asCode _ rfl, Option.map_map,
        Option.map_map]
      rfl

theorem codeToken_le (c : Cell) (cs : List Cell) : (codeToken c cs).2 ≤ (c :: cs).length := by
  have hcases := codeToken_cases c cs
  generalize codeToken c cs = token at hcases ⊢
  obtain ⟨kind, size⟩ := token
  have hle {v r : List Cell} (e : c :: cs = v ++ r) : v.length ≤ (c :: cs).length := by
    rw [e, List.length_append]
    exact Nat.le_add_right _ _
  cases hcases with
  | calm _ _ e => exact hle e
  | mark | other => exact Nat.succ_le_succ (Nat.zero_le _)
  | operator ho => exact hle (takes_operatorToken ho).1

theorem codeToken_kind (c : Cell) (cs : List Cell) :
    (codeToken c cs).1 ≠ .comment ∧ (codeToken c cs).1 ≠ .literal := by
  have hcases := codeToken_cases c cs
  generalize codeToken c cs = token at hcases ⊢
  obtain ⟨kind, size⟩ := token
  change kind ≠ .comment ∧ kind ≠ .literal
  cases hcases with
  | calm hkind => rcases hkind with rfl | rfl | rfl <;> decide
  | mark hp =>
    rw [punctuation?] at hp
    (repeat' split at hp) <;> cases hp <;> decide
  | operator | other => decide

/-- A token of code is read off the characters as off the mask. -/
theorem codeToken_asCode {b : Bool} {t : Text} (ht : Text.OneLine t) {c : Cell} {cs : List Cell}
    (e : cellsFrom (.code b) t = c :: cs) (hc : c.region = .code) :
    codeToken c.asCode (cs.map Cell.asCode) = codeToken c cs := by
  have hnumber := extent_asCode ht e hc fun d hd => (haltsAt_numberToken hd).behind
  have hname := extent_asCode ht e hc fun d hd => (haltsAt_nameToken hd).behind
  have hcolor := extent_asCode ht e hc fun d hd => (haltsAt_colorToken hd).behind
  have hoperator := extent_asCode ht e hc fun d hd => haltsBehind_operatorToken hd
  simp only [extent, List.map_cons] at hnumber hname hcolor hoperator
  unfold codeToken
  simp only [hnumber, hname, hcolor, hoperator]
  rfl

end Layout

end PineTools
