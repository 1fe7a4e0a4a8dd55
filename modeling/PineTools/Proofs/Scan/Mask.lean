import PineTools.Proofs.Scan.Composition
import PineTools.Proofs.Scan.Parts
import PineTools.Proofs.Scan.Reports
import PineTools.Proofs.Scan.White

/-! The mask as a script of its own. Scanning it goes along with scanning the script: what was a
comment is white space in code, and a literal is a literal with the same quotes. So the mask alone
tells which literals are open and which brackets lie in code. -/
namespace PineTools

open Mode

theorem Cell.masked_newline (c : Cell) : c.masked = '\n' ↔ c.char = '\n' :=
  ⟨char_of_newline, fun h => by rw [Cell.masked, if_pos h, h]⟩

theorem Cell.masked_cases (c : Cell) :
    c.masked = c.char ∨ c.masked = ' ' ∨ c.masked = Cell.filler := by
  rw [Cell.masked]
  split
  · exact .inl rfl
  · split
    · exact .inl rfl
    · exact .inr (.inl rfl)
    · exact .inr (.inl rfl)
    · split
      · exact .inl rfl
      · exact .inr (.inr rfl)

def Cell.shown (c : Cell) : Cell :=
  ⟨c.masked, if c.region.isComment then .code else c.region, c.delimiter⟩

namespace Mode

/-- Where the scanner stands on the mask. -/
def shown : Mode → Mode
  | code b => code b
  | literal q | escaped q => literal q
  | line | lineSecond | block | blockSecond | blockLast => code false

/-- The second character of a pair in a literal is there, on the same line. -/
def Paired (m : Mode) (next : Option Char) : Prop := ∀ q, m = escaped q → next.any (· ≠ '\n') = true

theorem paired_start (next : Option Char) : Paired .start next := fun _ h => by cases h

theorem paired_step (m : Mode) (c : Char) (ahead : Option Char) : Paired (m.step c ahead).2 ahead :=
  fun _ h => (next_escaped h).2

theorem masked_comment {c : Cell} (h : c.region.isComment = true) :
    Text.isSpace c.masked = true := by
  rw [Cell.masked]
  split
  case isTrue hn =>
    rw [hn]
    decide
  case isFalse =>
    cases hr : c.region with
    | lineComment | blockComment => exact (by decide : Text.isSpace ' ' = true)
    | code | literal q =>
      rw [hr] at h
      cases h

theorem step_shown_comment (b : Bool) {c : Cell} (h : c.region.isComment = true)
    (hd : c.delimiter = false) (ahead : Option Char) : (code b).step c.masked ahead =
      (c.shown, code false) := by
  rw [step, stepCode_white b (masked_comment h) ahead, Cell.shown, if_pos h, hd]

/-- What the mask shows ahead begins a comment only where the script does. -/
def Veils (ahead shownAhead : Option Char) : Prop :=
  (shownAhead = some '/' → ahead = some '/') ∧ (shownAhead = some '*' → ahead = some '*')

theorem step_literal_filler (q : Quote) (ahead : Option Char) :
    (literal q).step Cell.filler ahead = (⟨Cell.filler, .literal q, false⟩, literal q) := by
  cases q <;> rfl

theorem step_shown_code (b : Bool) (c : Char) {ahead shownAhead : Option Char}
    (hveil : Veils ahead shownAhead) :
    (code b).step (stepCode b c ahead).1.masked shownAhead =
      ((stepCode b c ahead).1.shown, (stepCode b c ahead).2.shown) := by
  obtain ⟨hc, ha, e⟩ | ⟨hc, ha, e⟩ | ⟨q, rfl, hq, e⟩ | ⟨hpair, hq, e⟩ := stepCode_cases b c ahead
  · rw [e]
    exact step_shown_comment b rfl rfl shownAhead
  · rw [e]
    exact step_shown_comment b rfl rfl shownAhead
  · rw [e]
    obtain rfl := Quote.ofChar?_eq_some hq
    cases q <;> rfl
  · rw [e, Cell.masked_of_code rfl]
    have hpair' : ¬ (c = '/' ∧ (shownAhead = some '/' ∨ shownAhead = some '*')) := by
      rintro ⟨hc, h | h⟩
      · exact hpair ⟨hc, .inl (hveil.1 h)⟩
      · exact hpair ⟨hc, .inr (hveil.2 h)⟩
    obtain ⟨hc, ha, -⟩ | ⟨hc, ha, -⟩ | ⟨q, hb, hq', -⟩ | ⟨-, -, e'⟩ := stepCode_cases b c shownAhead
    · exact absurd ⟨hc, .inl ha⟩ hpair'
    · exact absurd ⟨hc, .inr ha⟩ hpair'
    · rw [hq', hb] at hq
      rcases hq with hq | hq <;> cases hq
    · rw [step, e', Cell.shown, Cell.masked_of_code rfl]
      rfl

theorem step_shown {m : Mode} {c : Char} (hpair : Paired m (some c)) {ahead shownAhead :
    Option Char} (hveil : Veils ahead shownAhead) :
    m.shown.step (m.step c ahead).1.masked shownAhead =
      ((m.step c ahead).1.shown, (m.step c ahead).2.shown) := by
  cases m with
  | code b => exact step_shown_code b c hveil
  | literal q =>
    change (literal q).step (stepLiteral q c ahead).1.masked shownAhead =
      ((stepLiteral q c ahead).1.shown, (stepLiteral q c ahead).2.shown)
    obtain ⟨rfl, e⟩ | ⟨rfl, e⟩ | ⟨rfl, -, e⟩ | ⟨hn, -, -, e⟩ := stepLiteral_cases q c ahead
    · rw [e]; rfl
    · rw [e]
      cases q <;> rfl
    · rw [e]
      exact step_literal_filler q shownAhead
    · rw [e]
      have hmasked : (⟨c, .literal q, false⟩ : Cell).masked = Cell.filler := by
        simp [Cell.masked, hn]
      rw [Cell.shown, hmasked]
      exact step_literal_filler q shownAhead
  | escaped q =>
    have hn : c ≠ '\n' := of_decide_eq_true (hpair q rfl)
    have hmasked : (⟨c, .literal q, false⟩ : Cell).masked = Cell.filler := by simp [Cell.masked, hn]
    rw [step, Cell.shown, hmasked]
    exact step_literal_filler q shownAhead
  | line =>
    rw [step, shown]
    split
    · rename_i hn
      rw [hn]
      rfl
    · exact step_shown_comment false rfl rfl shownAhead
  | block =>
    rw [step, shown]
    split <;> exact step_shown_comment false rfl rfl shownAhead
  | lineSecond | blockSecond | blockLast => exact step_shown_comment false rfl rfl shownAhead

end Mode

theorem veils_masked (m : Mode) (t : Text) :
    Veils t.head? ((cellsFrom m t).map Cell.masked).head? := by
  cases t with
  | nil => exact ⟨fun h => h, fun h => h⟩
  | cons c cs =>
    rw [cellsFrom, List.map_cons, List.head?_cons, List.head?_cons]
    have hfiller : Cell.filler ≠ '/' ∧ Cell.filler ≠ '*' := by decide
    have hcases := (m.step c cs.head?).1.masked_cases
    rw [step_char] at hcases
    rcases hcases with e | e | e
    · rw [e]
      exact ⟨fun h => h, fun h => h⟩
    · rw [e]
      exact ⟨fun h => absurd (Option.some.inj h) (by decide), fun h =>
        absurd (Option.some.inj h) (by decide)⟩
    · rw [e]
      exact ⟨fun h => absurd (Option.some.inj h) hfiller.1, fun h =>
        absurd (Option.some.inj h) hfiller.2⟩

theorem cellsFrom_masked {m : Mode} {t : Text} (h : Paired m t.head?) :
    cellsFrom m.shown ((cellsFrom m t).map Cell.masked) = (cellsFrom m t).map Cell.shown := by
  induction t generalizing m with
  | nil => rfl
  | cons c cs ih =>
    rw [cellsFrom, List.map_cons, cellsFrom, step_shown h (veils_masked _ cs),
      ih (paired_step m c cs.head?)]
    rfl

/-- The cells of the mask are those of the script, with comments as white space. -/
theorem cells_mask (t : Text) :
    cells (mask t) = (cells t).map Cell.shown := cellsFrom_masked (paired_start t.head?)

theorem unclosedFrom_masked {m : Mode} {t : Text} (h : Paired m t.head?) (number : Nat) :
    unclosedFrom m.shown number ((cellsFrom m t).map Cell.masked) = unclosedFrom m number t := by
  induction t generalizing m number with
  | nil =>
    cases m with
    | escaped q => cases h q rfl
    | code b | line | lineSecond | block | blockSecond | blockLast | literal q => rfl
  | cons c cs ih =>
    have hnewline : ((m.step c cs.head?).1.masked = '\n') = (c = '\n') := by
      rw [Cell.masked_newline, step_char]
    have hopen : (if c = '\n' then openAt m.shown number false else []) = if c = '\n' then
        openAt m number false else [] := by
      split
      case isTrue hc =>
        cases m with
        | escaped q => exact absurd hc (of_decide_eq_true (h q rfl))
        | code b | line | lineSecond | block | blockSecond | blockLast | literal q => rfl
      case isFalse => rfl
    rw [cellsFrom, List.map_cons, unclosedFrom_step, unclosedFrom_step,
      step_shown h (veils_masked _ cs), ih (paired_step m c cs.head?)]
    simp only [hnewline, hopen]

theorem unclosedLiterals_mask (t : Text) : unclosedLiterals (mask t) = unclosedLiterals t :=
  unclosedFrom_masked (paired_start t.head?) 1

theorem bracketStep_shown (stack : List OpenBracket) (number : Nat) (c : Cell) :
    bracketStep stack number c.shown = bracketStep stack number c := by
  cases hr : c.region with
  | code =>
    have hshown : c.shown.isCode = c.isCode := by rw [Cell.isCode, Cell.isCode, Cell.shown, hr]; rfl
    rw [bracketStep, bracketStep, hshown, Cell.shown, Cell.masked_of_code hr]
  | literal q =>
    have hcode : c.isCode = false := by rw [Cell.isCode, hr]; rfl
    have hshown : c.shown.isCode = false := by rw [Cell.isCode, Cell.shown, hr]; rfl
    rw [bracketStep, bracketStep, hshown, hcode]
    rfl
  | lineComment | blockComment =>
    have hcomment : c.region.isComment = true := by rw [hr]; rfl
    have hcode : c.isCode = false := by rw [Cell.isCode, hr]; rfl
    have hwhite : Text.isSpace c.shown.char = true := masked_comment hcomment
    rw [bracketStep, bracketStep, hcode, Bracket.ofOpener?_white hwhite,
      Bracket.ofCloser?_white hwhite]
    split <;> rfl

theorem bracketsFrom_shown (stack : List OpenBracket) (number : Nat) (cs : List Cell) :
    bracketsFrom stack number (cs.map Cell.shown) = bracketsFrom stack number cs := by
  induction cs generalizing stack number with
  | nil => rfl
  | cons c cs ih =>
    have hnewline : (c.shown.char = '\n') = (c.char = '\n') := propext c.masked_newline
    rw [List.map_cons, bracketsFrom_cons, bracketsFrom_cons, bracketStep_shown, ih]
    simp only [hnewline]

theorem matchBrackets_mask (t : Text) : matchBrackets (mask t) = matchBrackets t := by
  rw [matchBrackets, cells_mask, bracketsFrom_shown, ← matchBrackets]

/-- What is shown is hidden no further: comments are white space already, and literals are filled
already. -/
theorem Cell.shown_masked (c : Cell) : c.shown.masked = c.masked := by
  by_cases hn : c.char = '\n'
  · have hm : c.shown.char = '\n' := c.masked_newline.mpr hn
    rw [Cell.masked, if_pos hm]
    rfl
  · have hm : c.shown.char ≠ '\n' := fun h => hn (c.masked_newline.mp h)
    cases hr : c.region with
    | code | lineComment | blockComment =>
      refine Cell.masked_of_code ?_
      rw [Cell.shown, hr]
      rfl
    | literal q =>
      have hregion : c.shown.region = .literal q := by rw [Cell.shown, hr]; rfl
      rw [Cell.masked, if_neg hm, hregion]
      change (if c.delimiter then c.masked else Cell.filler) = c.masked
      rw [Cell.masked, if_neg hn, hr]
      cases c.delimiter <;> rfl

theorem mask_mask (t : Text) : mask (mask t) = mask t := by
  rw [mask, cells_mask, List.map_map, mask]
  exact List.map_congr_left fun c _ => c.shown_masked

theorem newline_mask (t : Text) (i : Nat) : (mask t)[i]? = some '\n' ↔ t[i]? = some '\n' := by
  have hchar : t[i]? = (cells t)[i]?.map Cell.char := by
    rw [← List.getElem?_map, cells, cellsFrom_chars]
  rw [mask, List.getElem?_map, hchar]
  cases (cells t)[i]? with
  | none => exact Iff.rfl
  | some c =>
    rw [Option.map_some, Option.map_some, Option.some_inj, Option.some_inj]
    exact c.masked_newline

theorem regionAt_mask (t : Text) (i : Nat) :
    regionAt (mask t) i = (regionAt t i).map fun r => if r.isLiteral then r else .code := by
  have hregion (c : Cell) : c.shown.region = if c.region.isLiteral then c.region else .code := by
    rw [Cell.shown]
    cases c.region <;> rfl
  rw [regionAt, regionAt, cells_mask, List.getElem?_map, Option.map_map, Option.map_map]
  exact congrArg ((cells t)[i]?.map ·) (funext hregion)

theorem delimitersFrom_shown (offset : Nat) (cs : List Cell) :
    delimitersFrom offset (cs.map Cell.shown) = delimitersFrom offset cs := by
  induction cs generalizing offset with
  | nil => rfl
  | cons c cs ih =>
    rw [List.map_cons, delimitersFrom, delimitersFrom, ih]
    rfl

theorem delimiters_mask (t : Text) : delimiters (mask t) = delimiters t := by
  rw [delimiters, cells_mask, delimitersFrom_shown, ← delimiters]

/-- The mask is an abstraction of the script that hides nothing of its own: it has the length and
the newlines of the script, masking it changes nothing, its literals are those of the script and
everything else is code, and it has the same delimiters, the same open literals and the same bracket
report. -/
theorem mask_abstracts_faithfully (t : Text) :
    (mask t).length = t.length ∧ (∀ i : Nat, (mask t)[i]? = some '\n' ↔ t[i]? = some '\n') ∧
    mask (mask t) = mask t ∧
      (∀ i, regionAt (mask t) i = (regionAt t i).map fun r => if r.isLiteral then r else .code) ∧
      delimiters (mask t) = delimiters t ∧ unclosedLiterals (mask t) = unclosedLiterals t ∧
      matchBrackets (mask t) = matchBrackets t :=
  ⟨mask_length t, newline_mask t, mask_mask t, regionAt_mask t, delimiters_mask t,
    unclosedLiterals_mask t, matchBrackets_mask t⟩

end PineTools
