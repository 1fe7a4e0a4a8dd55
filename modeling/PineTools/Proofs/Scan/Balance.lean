import PineTools.Proofs.Construct.Masked
import PineTools.Proofs.Scan.Mask
import PineTools.Proofs.Scan.Places
import PineTools.Proofs.Scan.Respelling

/-! The structural imbalance of a script, line by line. Each line of the mask shows its brackets and
whether a literal stays open at its end; besides, only an open block comment counts. A line that
shows none of this may come or go. -/
namespace PineTools

open Mode

def isBracket (c : Char) : Bool := (Bracket.ofOpener? c).isSome || (Bracket.ofCloser? c).isSome

def brackets (code : Text) : Text := code.filter isBracket

def staysOpen (code : Text) : Bool := (Mode.start.after none code).inLiteral

section Words

variable {w : Text}

theorem brackets_append (a b : Text) :
    brackets (a ++ b) = brackets a ++ brackets b := List.filter_append ..

theorem filter_of_none {p : Char → Bool} (h : ∀ c ∈ w, p c = false) : w.filter p = [] :=
  List.filter_eq_nil_iff.mpr fun c hc => Bool.eq_false_iff.mp (h c hc)

theorem brackets_of_none (h : ∀ c ∈ w, isBracket c = false) : brackets w = [] := filter_of_none h

/-- In front of a line of code, a plain word does not matter. -/
theorem staysOpen_append (h : ∀ c ∈ w, Tame c) (b : Text) : staysOpen (w ++ b) = staysOpen b := by
  rw [staysOpen, after_append, after_tame h]
  rfl

theorem staysOpen_tame (h : ∀ c ∈ w, Tame c) : staysOpen w = false := by
  rw [staysOpen, after_tame h]
  rfl

theorem isBracket_white {c : Char} (h : Text.isSpace c = true) : isBracket c = false := by
  rw [isBracket, Bracket.ofOpener?_white h, Bracket.ofCloser?_white h]
  rfl

end Words

section Counts

theorem bracketCounts_congr {a b : List Cell} (h : ∀ stack, bracketCounts stack a =
    bracketCounts stack b) {c d : Cell} (hcode : c.isCode = d.isCode) (hchar : c.char = d.char)
      (stack : List Bracket) :
    bracketCounts stack (c :: a) = bracketCounts stack (d :: b) := by
  simp only [bracketCounts, hcode, hchar, h]

theorem bracketCounts_skip {c : Cell} (h : c.isCode = true → isBracket c.char = false)
    (stack : List Bracket) (cs : List Cell) :
    bracketCounts stack (c :: cs) = bracketCounts stack cs := by
  rw [bracketCounts]
  split
  case isFalse => rfl
  case isTrue hcode =>
    obtain ⟨hopener, hcloser⟩ := Bool.or_eq_false_iff.mp (h hcode)
    rw [Option.isSome_eq_false_iff, Option.isNone_iff_eq_none] at hopener hcloser
    rw [hopener, hcloser]

theorem code_of_bracket {m : Mode} {t : Text} {c : Cell} (hc : c ∈ cellsFrom m t)
    (h : isBracket c.masked = true) :
    c.region = .code ∧ c.char = c.masked := by
  refine code_of_masked hc ?_ ?_ ?_ fun q => ?_
  · exact fun e => absurd (e ▸ h) (by decide)
  · exact fun e => absurd (e ▸ h) (by decide)
  · exact fun e => absurd (e ▸ h) (by decide)
  · exact fun e => absurd (e ▸ h) (by cases q <;> decide)

theorem bracketCounts_masked (stack : List Bracket) {cs : List Cell}
    (h : ∀ c ∈ cs, isBracket c.masked = true → c.region = .code ∧ c.char = c.masked) :
    bracketCounts stack cs =
      bracketCounts stack ((brackets (cs.map Cell.masked)).map codeCell) := by
  induction cs generalizing stack with
  | nil => rfl
  | cons c cs ih =>
    obtain ⟨hc, hcs⟩ := List.forall_mem_cons.mp h
    rw [List.map_cons, brackets, List.filter_cons]
    cases hbracket : isBracket c.masked with
    | true =>
      obtain ⟨hcode, hchar⟩ := hc hbracket
      rw [if_pos rfl, List.map_cons]
      refine @bracketCounts_congr _ _ (fun stack => ih stack hcs) _
        (codeCell c.masked) ?_ hchar stack
      rw [Cell.isCode, hcode]
      rfl
    | false =>
      rw [if_neg Bool.false_ne_true, bracketCounts_skip fun hcode => ?_, ih stack hcs, brackets]
      rw [← Cell.masked_of_code (eq_of_beq hcode), hbracket]

end Counts

section Lines

/-- What lines of code, and an open comment behind them, make up of structural defects. -/
def balance (codes : List Text) (inComment : Bool) : Nat :=
  let counts := bracketCounts [] ((codes.flatMap brackets).map codeCell)
  counts.1 + counts.2 + codes.countP staysOpen + if inComment then 1 else 0

theorem brackets_lines (t : Text) : brackets t = (Text.lines t).flatMap brackets := by
  induction t using Text.lines_induction with
  | last l hl => rw [Text.lines_of_oneLine hl, List.flatMap_singleton]
  | more l t hl ih =>
    rw [Text.lines_append_newline hl, List.flatMap_cons, ← ih, brackets_append]; rfl

theorem staysOpen_readLine (inComment : Bool) {l : Text} (hl : Text.OneLine l) :
    staysOpen (readLine inComment l).masked = ((Mode.ofLine inComment).after none l).inLiteral := by
  have hpaired : Paired (Mode.ofLine inComment) l.head? := fun q e => by cases inComment <;> cases e
  have hshown : (Mode.ofLine inComment).shown = .start := by cases inComment <;> rfl
  have hmasked : Text.OneLine (readLine inComment l).masked := fun hmem => by
    obtain ⟨c, hc, hn⟩ := List.mem_map.mp hmem
    exact (ScriptLine.isRead_readLine inComment hl).inLine c hc hn
  have hsame := unclosedFrom_masked hpaired 0
  rw [hshown] at hsame
  change unclosedFrom .start 0 (readLine inComment l).masked = _ at hsame
  have hlength := congrArg List.length hsame
  rw [unclosedFrom_line hl (.inl (Mode.settled_ofLine inComment)) 0,
    unclosedFrom_line hmasked (.inl rfl) 0] at hlength
  rw [staysOpen]
  revert hlength
  cases (Mode.start.after none (readLine inComment l).masked).inLiteral <;>
    cases ((Mode.ofLine inComment).after none l).inLiteral <;> decide

theorem openLiterals_lines (inComment : Bool) {ls : List Text} (hls : ∀ l ∈ ls, Text.OneLine l) :
    (substance (.ofLine inComment) ls).openLiterals =
      ((readLines (.ofLine inComment) ls).map ScriptLine.masked).countP staysOpen := by
  induction ls generalizing inComment with
  | nil => rfl
  | cons l ls ih =>
    obtain ⟨hl, hls⟩ := List.forall_mem_cons.mp hls
    rw [substance, readLines_cons, List.map_cons, List.countP_cons, staysOpen_readLine inComment hl,
      ← ih _ hls, entry_eq_ofLine, ScriptLine.leaves, ScriptLine.readLine_inComment, Nat.add_comm]

theorem leavesAll_lines (t : Text) : leavesAll false (Text.lines t) = (openComment? t).isSome := by
  rw [openComment?_isSome, substance_inComment rfl, leavesAll_eq (Text.lines_ne_nil t),
    Text.unlines_lines]
  rfl

theorem structuralImbalance_lines (t : Text) :
    structuralImbalance t = balance (Text.lines (mask t)) (leavesAll false (Text.lines t)) := by
  have hone : ∀ l ∈ Text.lines t, Text.OneLine l := fun l hl => Text.oneLine_of_mem_lines hl
  have hcounts : bracketCounts [] (cells t) = bracketCounts [] ((brackets (mask t)).map codeCell) :=
    bracketCounts_masked [] fun c hc => code_of_bracket hc
  have hopen : (substance .start (Text.lines t)).openLiterals =
      (Text.lines (mask t)).countP staysOpen := by
    rw [lines_mask_eq, scriptLines_readLines]
    exact openLiterals_lines false hone
  rw [structuralImbalance_eq, Substance.imbalance, substance_solid rfl, bracketCounts_solidCells,
    ← cells, hcounts, hopen, ← openComment?_isSome, balance, ← brackets_lines, leavesAll_lines]

end Lines

end PineTools
