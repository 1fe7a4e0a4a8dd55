import PineTools.Proofs.Scan.Reading
import PineTools.Scan.Brackets

/-! The substance of a script: what is left of it when white space does not count. These are its
solid characters with their regions, the texts of its closed literals, the number of literals that
stay open, and whether it ends inside a block comment. The substance is put together line by line,
and the structural imbalance depends on nothing else. -/
namespace PineTools

def solidCells (cs : List Cell) : List Cell := cs.filter fun c => !Text.isSpace c.char

/-- The closed literals among cells. `opened` is what has been read of a literal so far. -/
def literalsFrom (opened : Text) : List Cell → List Text
  | [] => []
  | c :: cs =>
    if c.region.isLiteral then
      if c.delimiter && !opened.isEmpty then (opened ++ [c.char]) :: literalsFrom [] cs
      else literalsFrom (opened ++ [c.char]) cs
    else literalsFrom [] cs

def closedLiterals (t : Text) : List Text := literalsFrom [] (cells t)

structure Substance where
  solid : List Cell
  literals : List Text
  openLiterals : Nat
  inComment : Bool
  deriving DecidableEq, Repr, Inhabited

/-- The substance of lines that are read from the given mode on. -/
def substance (m : Mode) : List Text → Substance
  | [] => ⟨[], [], 0, m.inBlock⟩
  | l :: ls =>
    let rest := substance (m.after none l).entry ls
    { solid := solidCells (cellsFrom m l) ++ rest.solid
      literals := literalsFrom [] (cellsFrom m l) ++ rest.literals
      openLiterals := (if (m.after none l).inLiteral then 1 else 0) + rest.openLiterals
      inComment := rest.inComment }

/-- The substance of lines followed by others. -/
instance : Append Substance :=
  ⟨fun a b => ⟨a.solid ++ b.solid, a.literals ++ b.literals, a.openLiterals + b.openLiterals,
    b.inComment⟩⟩

def Mode.ofLine (inComment : Bool) : Mode := if inComment then .block else .code false

theorem Substance.append_eq (a b : Substance) :
    a ++ b = ⟨a.solid ++ b.solid, a.literals ++ b.literals, a.openLiterals + b.openLiterals,
      b.inComment⟩ := rfl

theorem Substance.append_assoc (a b c : Substance) : a ++ b ++ c = a ++ (b ++ c) := by
  simp only [Substance.append_eq, List.append_assoc, Nat.add_assoc]

theorem Mode.entry_eq_ofLine (m : Mode) : m.entry = Mode.ofLine m.inBlock := rfl

theorem Mode.inBlock_ofLine (inComment : Bool) : (Mode.ofLine inComment).inBlock = inComment := by
  cases inComment <;> rfl

theorem Mode.settled_ofLine (inComment : Bool) : (Mode.ofLine inComment).settled = true := by
  cases inComment <;> rfl

theorem substance_cons (m : Mode) (l : Text) (ls : List Text) :
    substance m (l :: ls) = substance m [l] ++
      substance (Mode.ofLine (substance m [l]).inComment) ls := by
  simp only [substance, Substance.append_eq, List.append_nil, Nat.add_zero, Mode.inBlock_entry,
    ← Mode.entry_eq_ofLine]

theorem substance_append (inComment : Bool) (a b : List Text) :
    substance (.ofLine inComment) (a ++ b) =
      substance (.ofLine inComment) a ++
        substance (.ofLine (substance (.ofLine inComment) a).inComment) b := by
  induction a generalizing inComment with
  | nil =>
    simp only [List.nil_append, substance, Substance.append_eq, Nat.zero_add, Mode.inBlock_ofLine]
  | cons l ls ih =>
    rw [List.cons_append, substance_cons, ih, substance_cons _ l ls, Substance.append_assoc]
    rfl

theorem solidCells_append (a b : List Cell) : solidCells (a ++ b) = solidCells a ++ solidCells b :=
  List.filter_append ..

theorem solidCells_cons_white {c : Cell} (h : Text.isSpace c.char = true) (cs : List Cell) :
    solidCells (c :: cs) = solidCells cs := by
  rw [solidCells, List.filter_cons, h]
  rfl

theorem newlineCell_not_literal (m : Mode) : (newlineCell m).region.isLiteral = false := by
  rw [newlineCell]
  cases m.inBlock <;> rfl

theorem literalsFrom_append_cons (opened : Text) (a : List Cell) {n : Cell}
    (hn : n.region.isLiteral = false) (b : List Cell) : literalsFrom opened (a ++ n :: b) =
      literalsFrom opened a ++ literalsFrom [] b := by
  induction a generalizing opened with
  | nil => simp only [List.nil_append, literalsFrom, hn, Bool.false_eq_true, if_false]
  | cons c cs ih =>
    rw [List.cons_append, literalsFrom, literalsFrom]
    split
    · split
      · rw [ih, List.cons_append]
      · exact ih _
    · exact ih _

section Lines

variable {m : Mode}

theorem substance_solid (h : m.settled = true) (t : Text) :
    (substance m (Text.lines t)).solid = solidCells (cellsFrom m t) := by
  induction t using Text.lines_induction generalizing m with
  | last l hl => simp only [Text.lines_of_oneLine hl, substance, List.append_nil]
  | more l t hl ih =>
    rw [Text.lines_append_newline hl, cellsFrom_newline h, solidCells_append,
      solidCells_cons_white Text.isSpace_newline, ← ih (Mode.settled_entry _), substance]

theorem substance_literals (h : m.settled = true) (t : Text) :
    (substance m (Text.lines t)).literals = literalsFrom [] (cellsFrom m t) := by
  induction t using Text.lines_induction generalizing m with
  | last l hl => simp only [Text.lines_of_oneLine hl, substance, List.append_nil]
  | more l t hl ih =>
    rw [Text.lines_append_newline hl, cellsFrom_newline h, literalsFrom_append_cons _ _
      (newlineCell_not_literal _), ← ih (Mode.settled_entry _), substance]

theorem substance_inComment (h : m.settled = true) (t : Text) :
    (substance m (Text.lines t)).inComment = (m.after none t).inBlock := by
  induction t using Text.lines_induction generalizing m with
  | last l hl => simp only [Text.lines_of_oneLine hl, substance, Mode.inBlock_entry]
  | more l t hl ih =>
    rw [Text.lines_append_newline hl, after_newline h, ← ih (Mode.settled_entry _), substance]

theorem unclosedFrom_cons (m : Mode) (n : Nat) {c : Char} (hc : c ≠ '\n') (cs : Text) :
    unclosedFrom m n (c :: cs) = unclosedFrom (m.step c cs.head?).2 n cs := by
  simp only [unclosedFrom, if_neg hc]

theorem unclosedFrom_newline_cons (h : m.settled = true) (n : Nat) (t : Text) :
    (unclosedFrom m n ('\n' :: t)).length =
      (if m.inLiteral then 1 else 0) + (unclosedFrom m.entry (n + 1) t).length := by
  simp only [unclosedFrom, if_true, Mode.step_newline h]
  cases m with
  | literal q => exact Nat.add_comm _ _
  | code b | line | block => exact (Nat.zero_add _).symm
  | lineSecond | blockSecond | blockLast | escaped q => cases h

theorem unclosedFrom_newline {l : Text} (hl : Text.OneLine l) (h : m.settled = true ∨ l ≠ [])
    (n : Nat) (t : Text) :
    (unclosedFrom m n (l ++ '\n' :: t)).length =
      (if (m.after none l).inLiteral then 1 else 0) +
        (unclosedFrom (m.after none l).entry (n + 1) t).length := by
  induction l generalizing m with
  | nil => exact unclosedFrom_newline_cons (h.resolve_right (absurd rfl)) n t
  | cons c cs ih =>
    have hc : c ≠ '\n' := hl.head
    have hcs : Text.OneLine cs := hl.tail
    rw [List.cons_append, unclosedFrom_cons m n hc]
    cases cs with
    | nil =>
      rw [List.nil_append, List.head?_cons, Mode.step_newline_ahead]
      exact ih hcs (.inl (Mode.step_none_settled m c))
    | cons d ds => exact ih hcs (.inr (List.cons_ne_nil d ds))

theorem unclosedFrom_line {l : Text} (hl : Text.OneLine l) (h : m.settled = true ∨ l ≠ [])
    (n : Nat) :
    (unclosedFrom m n l).length = if (m.after none l).inLiteral then 1 else 0 := by
  induction l generalizing m with
  | nil =>
    have hm := h.resolve_right (absurd rfl)
    cases m <;> first | rfl | cases hm
  | cons c cs ih =>
    have hc : c ≠ '\n' := hl.head
    have hcs : Text.OneLine cs := hl.tail
    rw [unclosedFrom_cons m n hc]
    cases cs with
    | nil => exact ih hcs (.inl (Mode.step_none_settled m c))
    | cons d ds => exact ih hcs (.inr (List.cons_ne_nil d ds))

theorem substance_openLiterals (h : m.settled = true) (n : Nat) (t : Text) :
    (substance m (Text.lines t)).openLiterals = (unclosedFrom m n t).length := by
  induction t using Text.lines_induction generalizing m n with
  | last l hl =>
    simp only [Text.lines_of_oneLine hl, substance, Nat.add_zero, unclosedFrom_line hl (.inl h)]
  | more l t hl ih =>
    rw [Text.lines_append_newline hl, unclosedFrom_newline hl (.inl h), ← ih (Mode.settled_entry _),
      substance]

end Lines

theorem openCommentFrom_isSome (m : Mode) (opened line : Nat) (t : Text) :
    (openCommentFrom m opened line t).isSome = (m.after none t == .block) := by
  induction t generalizing m opened line with
  | nil => cases m <;> rfl
  | cons c cs ih =>
    rw [openCommentFrom, ih, Mode.after, Option.or_none]

theorem openComment?_isSome (t : Text) :
    (openComment? t).isSome = (substance .start (Text.lines t)).inComment := by
  have hs : (Mode.start.after none t).settled = true := Mode.settled_after rfl t
  rw [openComment?, openCommentFrom_isSome, substance_inComment rfl]
  revert hs
  cases Mode.start.after none t <;> simp [Mode.settled, Mode.inBlock]

/-- The numbers of issues and of open brackets, from a stack whose top comes first. -/
def bracketCounts (stack : List Bracket) : List Cell → Nat × Nat
  | [] => (0, stack.length)
  | cell :: cs =>
    if cell.isCode then
      match Bracket.ofOpener? cell.char, Bracket.ofCloser? cell.char with
      | some kind, _ => bracketCounts (kind :: stack) cs
      | none, none => bracketCounts stack cs
      | none, some kind =>
        match stack with
        | [] => ((bracketCounts [] cs).1 + 1, (bracketCounts [] cs).2)
        | top :: below =>
          if top = kind then bracketCounts below cs
            else ((bracketCounts below cs).1 + 1, (bracketCounts below cs).2)
    else bracketCounts stack cs

theorem Bracket.ofOpener?_eq_some {c : Char} {k : Bracket} :
    Bracket.ofOpener? c = some k ↔ c = k.opener := by
  rw [Bracket.ofOpener?]
  constructor
  · intro h
    split at h
    · cases h; assumption
    · split at h
      · cases h; assumption
      · split at h
        · cases h; assumption
        · cases h
  · rintro rfl
    cases k <;> rfl

theorem Bracket.ofCloser?_eq_some {c : Char} {k : Bracket} :
    Bracket.ofCloser? c = some k ↔ c = k.closer := by
  rw [Bracket.ofCloser?]
  constructor
  · intro h
    split at h
    · cases h; assumption
    · split at h
      · cases h; assumption
      · split at h
        · cases h; assumption
        · cases h
  · rintro rfl
    cases k <;> rfl

theorem Bracket.ofOpener?_white {c : Char} (h : Text.isSpace c = true) :
    Bracket.ofOpener? c = none := by
  refine Option.eq_none_iff_forall_ne_some.mpr fun k hk => ?_
  rw [Bracket.ofOpener?_eq_some.mp hk] at h
  cases k <;> exact absurd h (by decide)

theorem Bracket.ofCloser?_white {c : Char} (h : Text.isSpace c = true) :
    Bracket.ofCloser? c = none := by
  refine Option.eq_none_iff_forall_ne_some.mpr fun k hk => ?_
  rw [Bracket.ofCloser?_eq_some.mp hk] at h
  cases k <;> exact absurd h (by decide)

theorem bracketCounts_solidCells (stack : List Bracket) (cs : List Cell) :
    bracketCounts stack (solidCells cs) = bracketCounts stack cs := by
  induction cs generalizing stack with
  | nil => rfl
  | cons c cs ih =>
    cases hc : Text.isSpace c.char with
    | true =>
      rw [solidCells_cons_white hc, ih, bracketCounts, Bracket.ofOpener?_white hc,
        Bracket.ofCloser?_white hc]
      split <;> rfl
    | false =>
      have hs : solidCells (c :: cs) = c :: solidCells cs := by
        rw [solidCells, List.filter_cons, hc]
        rfl
      rw [hs]
      simp only [bracketCounts, ih]

theorem bracketCounts_cons_white {c : Cell} (h : Text.isSpace c.char = true) (stack : List Bracket)
    (cs : List Cell) :
    bracketCounts stack (c :: cs) = bracketCounts stack cs := by
  rw [← bracketCounts_solidCells, solidCells_cons_white h, bracketCounts_solidCells]

theorem bracketsFrom_counts (stack : List OpenBracket) (line : Nat) (cs : List Cell) :
    ((bracketsFrom stack line cs).issues.length, (bracketsFrom stack line cs).unclosed.length) =
      bracketCounts (stack.map OpenBracket.kind) cs := by
  induction cs generalizing stack line with
  | nil => simp only [bracketsFrom, bracketCounts, List.length_nil, List.length_reverse,
      List.length_map]
  | cons c cs ih =>
    by_cases hn : c.char = '\n'
    · rw [bracketCounts_cons_white (hn ▸ Text.isSpace_newline), ← ih stack (line + 1)]
      simp only [bracketsFrom, if_pos hn]
    cases hc : c.isCode with
    | false => simpa only [bracketsFrom, bracketCounts, if_neg hn, hc, Bool.false_eq_true,
        if_false] using ih stack line
    | true =>
      simp only [bracketsFrom, bracketCounts, if_neg hn, hc, if_true]
      cases Bracket.ofOpener? c.char with
      | some kind => exact ih (⟨kind, line⟩ :: stack) line
      | none =>
        cases Bracket.ofCloser? c.char with
        | none => exact ih stack line
        | some kind =>
          cases stack with
          | nil => exact congrArg (fun p : Nat × Nat => (p.1 + 1, p.2)) (ih [] line)
          | cons top below =>
            simp only [List.map_cons]
            split
            · exact ih below line
            · exact congrArg (fun p : Nat × Nat => (p.1 + 1, p.2)) (ih below line)

/-- Structural defects as they show in the substance. -/
def Substance.imbalance (s : Substance) : Nat :=
  (bracketCounts [] s.solid).1 + (bracketCounts [] s.solid).2 + s.openLiterals +
    (if s.inComment then 1 else 0)

theorem structuralImbalance_eq (t : Text) :
    structuralImbalance t = (substance .start (Text.lines t)).imbalance := by
  obtain ⟨hi, hu⟩ := Prod.ext_iff.mp (bracketsFrom_counts [] 1 (cells t))
  simp only [List.map_nil] at hi hu
  rw [structuralImbalance, matchBrackets, hi, hu, openComment?_isSome, unclosedLiterals,
    ← substance_openLiterals rfl, Substance.imbalance, substance_solid rfl,
    bracketCounts_solidCells]
  rfl

end PineTools
