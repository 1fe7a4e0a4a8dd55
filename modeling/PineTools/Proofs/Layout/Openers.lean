import PineTools.Layout.Format
import PineTools.Proofs.Scan.Balance

/-! The levels of indentation and the open brackets. Brackets are closed in front of a line, inside
it and on lines that go on with a comment, and blocks are opened, put below a bracket level, taken
over and ended; through all of it each bracket level keeps an opener, and the openers of the levels
are the brackets that are open. -/
namespace PineTools.Layout

section Open

/-- The open brackets, the innermost first, after one character of code. -/
def openStep (opened : List Char) (c : Char) : List Char :=
  if isOpener c then c :: opened else if isCloser c then opened.drop 1 else opened

/-- The open brackets, the innermost first, after some code. -/
def openAfter (opened : List Char) (code : Text) : List Char := code.foldl openStep opened

theorem openAfter_append (opened : List Char) (a b : Text) :
    openAfter opened (a ++ b) = openAfter (openAfter opened a) b :=
  List.foldl_append

theorem openStep_of_none {c : Char} (h : isBracket c = false) (opened : List Char) :
    openStep opened c = opened := by
  obtain ⟨hopener, hcloser⟩ := Bool.or_eq_false_iff.mp h
  rw [openStep, isOpener, isCloser, hopener, hcloser]
  rfl

theorem openAfter_brackets (opened : List Char) (code : Text) :
    openAfter opened (brackets code) = openAfter opened code := by
  induction code generalizing opened with
  | nil => rfl
  | cons c code ih =>
    rw [brackets, List.filter_cons]
    cases h : isBracket c with
    | true => exact ih (openStep opened c)
    | false =>
      rw [if_neg Bool.false_ne_true]
      change openAfter opened (brackets code) = openAfter (openStep opened c) code
      rw [openStep_of_none h, ih]

theorem openAfter_of_none (opened : List Char) {code : Text} (h : ∀ c ∈ code, isBracket c = false) :
    openAfter opened code = opened := by
  rw [← openAfter_brackets, brackets_of_none h]
  rfl

theorem openAfter_closers (opened : List Char) {code : Text} (h : ∀ c ∈ code, isCloser c = true) :
    openAfter opened code = opened.drop code.length := by
  induction code generalizing opened with
  | nil => rfl
  | cons c code ih =>
    obtain ⟨hc, hcode⟩ := List.forall_mem_cons.mp h
    have hopener : isOpener c = false := by
      obtain ⟨k, hk⟩ := Option.isSome_iff_exists.mp hc
      rw [Bracket.ofCloser?_eq_some.mp hk]
      cases k <;> rfl
    have hstep : openStep opened c = opened.drop 1 := by simp [openStep, hopener, hc]
    change openAfter (openStep opened c) code = _
    rw [hstep, ih _ hcode, List.drop_drop, List.length_cons, Nat.add_comm]

theorem brackets_strip (t : Text) : brackets (Text.strip t) = brackets t := by
  have hsolid (t : Text) : brackets (Text.solid t) = brackets t := by
    rw [brackets, brackets, Text.solid, List.filter_filter]
    apply List.filter_congr
    intro c _
    cases h : Text.isSpace c with
    | true => rw [isBracket_white h]; rfl
    | false => simp
  have hleft : Text.solid (Text.trimLeft Text.isSpace t) = Text.solid t := by
    have hwhite : Text.solid (t.takeWhile Text.isSpace) = [] :=
      Text.solid_eq_nil (List.all_eq_true.mp List.all_takeWhile)
    calc Text.solid (Text.trimLeft Text.isSpace t)
        = Text.solid (t.takeWhile Text.isSpace) ++ Text.solid (t.dropWhile Text.isSpace) := by
          rw [hwhite]; rfl
      _ = Text.solid t := by rw [← Text.solid_append, List.takeWhile_append_dropWhile]
  rw [← hsolid, ← hsolid t, Text.strip, Text.solid_trimRight, hleft]

theorem openAfter_strip (opened : List Char) (t : Text) :
    openAfter opened (Text.strip t) = openAfter opened t := by
  rw [← openAfter_brackets, brackets_strip, openAfter_brackets]

/-- The openers that the report of the brackets leaves are the ones that the mask leaves open. -/
theorem unclosed_eq_openAfter (stack : List OpenBracket) (number : Nat) {cs : List Cell}
    (h : ∀ c ∈ cs, isBracket c.masked = true → c.region = .code ∧ c.char = c.masked) :
    (bracketsFrom stack number cs).unclosed.map (fun o => o.kind.opener) =
      (openAfter (stack.map fun o => o.kind.opener) (cs.map Cell.masked)).reverse := by
  induction cs generalizing stack number with
  | nil => exact List.map_reverse
  | cons c cs ih =>
    obtain ⟨hc, hcs⟩ := List.forall_mem_cons.mp h
    have hstep : (bracketStep stack number c).2.map (fun o => o.kind.opener) =
        openStep (stack.map fun o => o.kind.opener) c.masked := by
      cases hbracket : isBracket c.masked with
      | false =>
        rw [openStep_of_none hbracket, bracketStep]
        split
        case isFalse => rfl
        case isTrue hcode =>
          have hmasked : c.masked = c.char := Cell.masked_of_code (eq_of_beq hcode)
          rw [hmasked] at hbracket
          obtain ⟨hopener, hcloser⟩ := Bool.or_eq_false_iff.mp hbracket
          rw [Option.isSome_eq_false_iff, Option.isNone_iff_eq_none] at hopener hcloser
          rw [hopener, hcloser]
      | true =>
        obtain ⟨hcode, hchar⟩ := hc hbracket
        have hcode : c.isCode = true := by rw [Cell.isCode, hcode]; rfl
        rw [bracketStep, if_pos hcode, hchar, openStep, isOpener, isCloser]
        cases hopener : Bracket.ofOpener? c.masked with
        | some kind => simp [Bracket.ofOpener?_eq_some.mp hopener]
        | none =>
          cases hcloser : Bracket.ofCloser? c.masked with
          | none => rfl
          | some kind => cases stack <;> rfl
    rw [bracketsFrom_cons, List.map_cons]
    change (bracketsFrom _ _ cs).unclosed.map _ = (openAfter (openStep _ c.masked) _).reverse
    rw [ih _ _ hcs, hstep]

theorem matchBrackets_unclosed (t : Text) :
    (matchBrackets t).unclosed.map (fun o => o.kind.opener) =
    ((scriptLines t).foldl (fun opened line => openAfter opened line.masked) []).reverse := by
  have hlines (opened : List Char) (ls : List Text) :
      openAfter opened (ls.flatMap brackets) = ls.foldl openAfter opened := by
    induction ls generalizing opened with
    | nil => rfl
    | cons l ls ih => rw [List.flatMap_cons, openAfter_append, openAfter_brackets, ih,
        List.foldl_cons]
  have hunclosed := @unclosed_eq_openAfter [] 1 (cells t) fun c hc => @code_of_bracket .start t c hc
  rw [matchBrackets, hunclosed]
  change (openAfter [] (mask t)).reverse = _
  rw [← openAfter_brackets, brackets_lines, hlines, lines_mask_eq, List.foldl_map]

end Open

namespace Level

def openers : Level → List Char
  | .bracket _ openers => openers
  | .block _ _ => []

def Held (level : Level) : Prop := level.isBracket = true → level.openers ≠ []

end Level

def openersOf (levels : List Level) : List Char := levels.flatMap Level.openers

theorem openersOf_cons (level : Level) (levels : List Level) :
    openersOf (level :: levels) = level.openers ++ openersOf levels := List.flatMap_cons

/-- Levels that others differ from in blocks only. -/
structure OnlyBlocksFrom (levels levels' : List Level) : Prop where
  mem : ∀ level ∈ levels', level ∈ levels ∨ level.isBracket = false
  openers : openersOf levels' = openersOf levels

namespace OnlyBlocksFrom

theorem refl (levels : List Level) : OnlyBlocksFrom levels levels := ⟨fun _ h => .inl h, rfl⟩

theorem trans {a b c : List Level} (hab : OnlyBlocksFrom a b) (hbc : OnlyBlocksFrom b c) :
    OnlyBlocksFrom a c := by
  constructor
  · intro level hlevel
    rcases hbc.mem level hlevel with hmem | hblock
    · exact hab.mem level hmem
    · exact .inr hblock
  · exact hbc.openers.trans hab.openers

theorem openers_of_block {level : Level} (h : level.isBracket = false) : level.openers = [] := by
  cases level with
  | bracket line openers => cases h
  | block line width => rfl

theorem drop {level : Level} (h : level.isBracket = false) {levels levels' : List Level}
    (hrest : OnlyBlocksFrom levels levels') :
    OnlyBlocksFrom (level :: levels) levels' := by
  constructor
  · intro l hl
    exact (hrest.mem l hl).imp_left (List.mem_cons_of_mem level)
  · rw [hrest.openers, openersOf_cons, openers_of_block h, List.nil_append]

theorem add {level : Level} (h : level.isBracket = false) {levels levels' : List Level}
    (hrest : OnlyBlocksFrom levels levels') :
    OnlyBlocksFrom levels (level :: levels') := by
  constructor
  · exact List.forall_mem_cons.mpr ⟨.inr h, hrest.mem⟩
  · rw [openersOf_cons, openers_of_block h, List.nil_append, hrest.openers]

theorem keep (level : Level) {levels levels' : List Level} (hrest : OnlyBlocksFrom levels levels') :
    OnlyBlocksFrom (level :: levels) (level :: levels') := by
  constructor
  · refine List.forall_mem_cons.mpr ⟨.inl List.mem_cons_self, fun l hl => ?_⟩
    exact (hrest.mem l hl).imp_left (List.mem_cons_of_mem level)
  · rw [openersOf_cons, openersOf_cons, hrest.openers]

end OnlyBlocksFrom

namespace Nesting

/-- Each bracket level has an opener, and behind the openers of the current line those of the levels
are the open brackets. -/
structure Sound (own : List Char) (n : Nesting) : Prop where
  held : ∀ level ∈ n.levels, level.Held
  opened : n.opened = own ++ openersOf n.levels

theorem sound_empty : Sound [] empty := ⟨fun _ h => absurd h List.not_mem_nil, rfl⟩

theorem Sound.withLevels {own : List Char} {n : Nesting} (h : Sound own n) {levels : List Level}
    (hblocks : OnlyBlocksFrom n.levels levels) : Sound own { n with levels } := by
  constructor
  · intro level hlevel
    rcases hblocks.mem level hlevel with hmem | hblock
    · exact h.held level hmem
    · intro hbracket
      rw [hblock] at hbracket
      cases hbracket
  · rw [h.opened, hblocks.openers]

section Close

variable {levels : List Level}

theorem openersOf_dropOpener (h : ∀ level ∈ levels, level.Held) :
    openersOf (dropOpener levels) = (openersOf levels).drop 1 := by
  induction levels with
  | nil => rfl
  | cons level rest ih =>
    obtain ⟨hlevel, hrest⟩ := List.forall_mem_cons.mp h
    cases level with
    | block line width => exact ih hrest
    | bracket line openers =>
      cases openers with
      | nil => exact absurd rfl (hlevel rfl)
      | cons c openers =>
        cases openers with
        | nil => rfl
        | cons d openers => rfl

theorem held_dropOpener (h : ∀ level ∈ levels, level.Held) :
    ∀ level ∈ dropOpener levels, level.Held := by
  induction levels with
  | nil => exact h
  | cons level rest ih =>
    obtain ⟨-, hrest⟩ := List.forall_mem_cons.mp h
    cases level with
    | block line width => exact ih hrest
    | bracket line openers =>
      match openers with
      | [] => exact hrest
      | [c] => exact hrest
      | c :: d :: openers =>
        exact List.forall_mem_cons.mpr ⟨fun _ => List.cons_ne_nil d openers, hrest⟩

theorem openersOf_of_none (h : levels.any Level.isBracket = false) : openersOf levels = [] := by
  rw [openersOf, List.flatMap_eq_nil_iff]
  intro level hlevel
  have hblock := List.any_eq_false.mp h level hlevel
  cases level with
  | block line width => rfl
  | bracket line openers => exact absurd rfl hblock

theorem Sound.close {n : Nesting} (h : Sound [] n) : Sound [] n.close := by
  have hopened : n.opened = openersOf n.levels := h.opened
  rw [Nesting.close]
  split
  case isTrue =>
    refine ⟨held_dropOpener h.held, ?_⟩
    rw [hopened, List.nil_append, openersOf_dropOpener h.held]
  case isFalse hnone =>
    refine ⟨h.held, ?_⟩
    rw [hopened, openersOf_of_none (Bool.not_eq_true _ ▸ hnone)]
    rfl

theorem Sound.closeMany {n : Nesting} (h : Sound [] n) (k : Nat) :
    Sound [] (closeMany k n) ∧ (Nesting.closeMany k n).opened = n.opened.drop k := by
  induction k generalizing n with
  | zero => exact ⟨h, rfl⟩
  | succ k ih =>
    obtain ⟨hsound, hopened⟩ := ih h.close
    refine ⟨hsound, hopened.trans ?_⟩
    change (n.opened.drop 1).drop k = _
    rw [List.drop_drop, Nat.add_comm]

end Close

theorem follow_cons (own : List Char) (n : Nesting) (c : Char) (code : Text) :
    n.follow own (c :: code) =
    if isOpener c then follow (c :: own) { n with opened := c :: n.opened } code
    else if isCloser c then
      match own with
      | _ :: rest => follow rest { n with opened := n.opened.drop 1 } code
      | [] => follow [] n.close code
    else follow own n code := by
  cases own <;> rfl

theorem Sound.follow {own : List Char} {n : Nesting} (h : Sound own n) (code : Text) :
    Sound (n.follow own code).2 (n.follow own code).1 ∧ (n.follow own code).1.opened =
      openAfter n.opened code := by
  induction code generalizing own n with
  | nil => exact ⟨h, rfl⟩
  | cons c code ih =>
    change _ ∧ _ = openAfter (openStep n.opened c) code
    rw [follow_cons, openStep]
    by_cases hopener : isOpener c = true
    · rw [if_pos hopener, if_pos hopener]
      refine ih ⟨h.held, ?_⟩
      rw [h.opened]
      rfl
    rw [if_neg hopener, if_neg hopener]
    by_cases hcloser : isCloser c = true
    · rw [if_pos hcloser, if_pos hcloser]
      cases own with
      | nil => exact ih h.close
      | cons d own =>
        refine ih ⟨h.held, ?_⟩
        rw [h.opened]
        rfl
    · rw [if_neg hcloser, if_neg hcloser]
      exact ih h

/-- The openers that a line leaves open become a level. -/
theorem Sound.track {n : Nesting} (h : Sound [] n) (line : Nat) (code : Text) :
    Sound [] (n.track line code).1 ∧ (n.track line code).1.opened = openAfter n.opened code := by
  obtain ⟨hsound, hopened⟩ := h.follow code
  rw [Nesting.track]
  cases hfollow : n.follow [] code with
  | mk after own =>
    rw [hfollow] at hsound hopened
    cases own with
    | nil => exact ⟨hsound, hopened⟩
    | cons c own =>
      refine ⟨⟨List.forall_mem_cons.mpr ⟨fun _ => List.cons_ne_nil c own, hsound.held⟩, ?_⟩,
        hopened⟩
      exact hsound.opened

end Nesting

section Lines

theorem endBlocks_blocks (width : Nat) (levels : List Level) :
    OnlyBlocksFrom levels (Nesting.endBlocks width levels) := by
  induction levels with
  | nil => exact .refl []
  | cons level rest ih =>
    cases level with
    | bracket line openers => exact .refl _
    | block line w =>
      rw [Nesting.endBlocks]
      split
      · exact .drop rfl ih
      · exact .refl _

/-- At the start of a statement blocks end, and a brace takes one over. -/
theorem levelsAtStatement_blocks (s : IndentState) (code : Text) (width : Nat) :
    OnlyBlocksFrom s.nesting.levels (levelsAtStatement s code width) := by
  have hblock {top : Level} {line : Nat} (h : top.isBlockOf line = true) :
      top.isBracket = false := by
    cases top with
    | bracket l openers => cases h
    | block l w => rfl
  have hended {levels : List Level} (h : OnlyBlocksFrom s.nesting.levels levels) (inGroup : Bool) :
      OnlyBlocksFrom s.nesting.levels (if inGroup then levels
        else Nesting.endBlocks width levels) := by
    split
    · exact h
    · exact h.trans (endBlocks_blocks width levels)
  unfold levelsAtStatement
  apply hended
  split
  case h_2 => exact .refl _
  case h_1 top rest line hlevels _ =>
    split
    case isFalse => exact .refl _
    case isTrue hbrace =>
      rw [hlevels]
      exact .drop (hblock (Bool.and_eq_true_iff.mp hbrace).2) (.refl rest)

theorem pushBlock_blocks (line width : Nat) (own : List Char) (levels : List Level) :
    OnlyBlocksFrom levels (pushBlock line width own levels) := by
  cases own with
  | nil => exact .add rfl (.refl levels)
  | cons c own =>
    cases levels with
    | nil => exact .add rfl (.refl [])
    | cons top rest => exact .keep top (.add rfl (.refl rest))

theorem pushedIf_blocks (opens : Bool) (line width : Nat) (own : List Char) (levels : List Level) :
    OnlyBlocksFrom levels (if opens then pushBlock line width own levels else levels) := by
  cases opens with
  | true => exact pushBlock_blocks line width own levels
  | false => exact .refl levels

variable {options : FormatOptions} {s : IndentState} {number : Nat} {line : ScriptLine}
    {code : Text}

/-- A line that continues an expression ends no block, and any other one only ends blocks. -/
theorem Nesting.Sound.levelsOfLine (h : s.nesting.Sound []) (code : Text) (width : Nat) :
    Nesting.Sound [] { s.nesting with
    levels := if s.continuation then s.nesting.levels else levelsAtStatement s code width } := by
  apply h.withLevels
  split
  · exact .refl _
  · exact levelsAtStatement_blocks s code width

/-- Closers in front of a line are closed first, and the rest of it is followed. -/
theorem sound_layCode (h : s.nesting.Sound []) :
    (layCode options s number line code).2.nesting.Sound [] ∧
      (layCode options s number line code).2.nesting.opened = openAfter s.nesting.opened code := by
  obtain ⟨hclosed, hopened⟩ :=
    (h.levelsOfLine code (Text.columnAfter options.indentSize (leadingBlanks line.text))).closeMany
    (code.takeWhile isCloser).length
  obtain ⟨htracked, hopened'⟩ := hclosed.track number (code.drop (code.takeWhile isCloser).length)
  have hcode : openAfter s.nesting.opened code =
      openAfter (s.nesting.opened.drop (code.takeWhile isCloser).length)
        (code.drop (code.takeWhile isCloser).length) := by
    have hprefix : code.takeWhile isCloser ++ code.drop (code.takeWhile isCloser).length = code :=
      List.prefix_iff_eq_append.mp (List.takeWhile_prefix isCloser)
    rw [← openAfter_closers s.nesting.opened (List.all_eq_true.mp List.all_takeWhile),
      ← openAfter_append, hprefix]
  constructor
  · exact htracked.withLevels (pushedIf_blocks ..)
  · rw [hcode, ← hopened]
    exact hopened'

def ShowsBrackets (line : ScriptLine) : Prop := ∀ c ∈ line.cells, isBracket c.masked = true →
    c.char = c.masked

theorem openAfter_white {line : ScriptLine} (hline : ShowsBrackets line)
    (hwhite : Text.isAllSpace line.text = true) (opened : List Char) :
    openAfter opened line.masked = opened := by
  apply openAfter_of_none
  intro c hc
  obtain ⟨cell, hcell, rfl⟩ := List.mem_map.mp hc
  have hspace : Text.isSpace cell.char = true :=
    List.all_eq_true.mp hwhite _ (List.mem_map_of_mem hcell)
  cases h : isBracket cell.masked with
  | false => rfl
  | true =>
    have hnone := isBracket_white hspace
    rw [hline cell hcell h] at hnone
    exact h.symm.trans hnone

theorem sound_layLine (options : FormatOptions) (h : s.nesting.Sound []) (number : Nat)
    (hline : ShowsBrackets line) :
    (layLine options s number line).2.nesting.Sound [] ∧
      (layLine options s number line).2.nesting.opened =
        openAfter s.nesting.opened line.masked := by
  rw [← openAfter_strip, layLine]
  split
  case isTrue hwhite =>
    rw [openAfter_strip, openAfter_white hline hwhite]
    exact ⟨h, rfl⟩
  split
  case isTrue => exact h.track number _
  split
  case isTrue hempty =>
    rw [List.isEmpty_iff.mp hempty]
    exact ⟨h, rfl⟩
  case isFalse => exact sound_layCode h

def stateAfter (options : FormatOptions) (s : IndentState) (number : Nat) :
    List ScriptLine → IndentState
  | [] => s
  | line :: rest => stateAfter options (layLine options s number line).2 (number + 1) rest

theorem sound_stateAfter (options : FormatOptions) (h : s.nesting.Sound []) (number : Nat)
    {lines : List ScriptLine} (hlines : ∀ line ∈ lines, ShowsBrackets line) :
    (stateAfter options s number lines).nesting.Sound [] ∧
    (stateAfter options s number lines).nesting.opened =
      lines.foldl (fun opened line => openAfter opened line.masked) s.nesting.opened := by
  induction lines generalizing s number with
  | nil => exact ⟨h, rfl⟩
  | cons line lines ih =>
    obtain ⟨hline, hlines⟩ := List.forall_mem_cons.mp hlines
    obtain ⟨hsound, hopened⟩ := sound_layLine options h number hline
    rw [List.foldl_cons, ← hopened]
    exact ih hsound (number + 1) hlines

theorem showsBrackets_scriptLines {t : Text} : ∀ line ∈ scriptLines t, ShowsBrackets line := by
  intro line hline c hc hbracket
  have hread := isRead_of_mem_scriptLines hline
  rw [hread.cells_eq] at hc
  exact (code_of_bracket hc hbracket).2

theorem readLines_take (inComment : Bool) (ls : List Text) (k : Nat) :
    readLines (.ofLine inComment) (ls.take k) = (readLines (.ofLine inComment) ls).take k := by
  induction ls generalizing inComment k with
  | nil => rw [List.take_nil]; exact List.take_nil.symm
  | cons l ls ih =>
    cases k with
    | zero => rfl
    | succ k => rw [List.take_succ_cons, readLines_cons, readLines_cons, List.take_succ_cons, ih]

theorem scriptLines_take (t : Text) {k : Nat} (hk : k ≠ 0) :
    scriptLines (Text.unlines ((Text.lines t).take k)) = (scriptLines t).take k := by
  have hone : ∀ l ∈ (Text.lines t).take k, Text.OneLine l :=
    fun l hl => Text.oneLine_of_mem_lines (List.mem_of_mem_take hl)
  have hne : (Text.lines t).take k ≠ [] := by
    intro e
    rcases List.take_eq_nil_iff.mp e with h | h
    · exact hk h
    · exact Text.lines_ne_nil t h
  rw [scriptLines_readLines, scriptLines_readLines, Text.lines_unlines hne hone, readLines_take]

/-- After any number of lines the nesting is sound, and its open brackets are the openers that the
report of the brackets leaves over for these lines. -/
theorem sound_afterLines (options : FormatOptions) (t : Text) (k : Nat) :
    (stateAfter options .start 1 ((scriptLines t).take k)).nesting.Sound [] ∧
      (stateAfter options .start 1 ((scriptLines t).take k)).nesting.opened.reverse =
        (matchBrackets (Text.unlines ((Text.lines t).take k))).unclosed.map fun o =>
          o.kind.opener := by
  have hlines : ∀ line ∈ (scriptLines t).take k, ShowsBrackets line := fun line hline =>
    showsBrackets_scriptLines line (List.mem_of_mem_take hline)
  obtain ⟨hsound, hopened⟩ := @sound_stateAfter .start options Nesting.sound_empty 1 _ hlines
  refine ⟨hsound, ?_⟩
  rw [hopened, matchBrackets_unclosed]
  cases k with
  | zero => rfl
  | succ k => rw [scriptLines_take t (Nat.succ_ne_zero k)]; rfl

end Lines

end PineTools.Layout
