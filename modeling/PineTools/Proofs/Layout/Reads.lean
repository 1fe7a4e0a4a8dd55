import PineTools.Proofs.Layout.Openers

/-! Reads of the stack. The formatter looks at the top of its levels, looks at the innermost opener
of a level and takes it away. Here such a read gives nothing where there is nothing to read. On the
levels that a run meets each read gives something, so the run with these reads is the run of the
formatter, and the formatter returns. -/
namespace PineTools.Layout

/-- The level is a group, as its innermost opener tells. -/
def Level.isGroup? : Level → Option Bool
  | .bracket _ openers => openers.head?.map fun c => c != '\x7b'
  | .block _ _ => some false

def topGroup? : List Level → Option (Option Level)
  | [] => some none
  | top :: _ => top.isGroup?.map fun group => if group then some top else none

namespace Nesting

/-- Takes the innermost opener from the innermost bracket level: there must be such a level, and an
opener in it. -/
def dropOpener? : List Level → Option (List Level)
  | [] => none
  | .block _ _ :: rest => dropOpener? rest
  | .bracket line openers :: rest =>
    match openers with
    | [] => none
    | [_] => some rest
    | _ :: next :: more => some (.bracket line (next :: more) :: rest)

def close? (n : Nesting) : Option Nesting := do
  let levels ← if n.levels.any Level.isBracket then dropOpener? n.levels else some n.levels
  return ⟨levels, n.opened.drop 1⟩

def closeMany? : Nat → Nesting → Option Nesting
  | 0, n => some n
  | k + 1, n => do
    let n ← n.close?
    closeMany? k n

def follow? (own : List Char) (n : Nesting) : Text → Option (Nesting × List Char)
  | [] => some (n, own)
  | c :: cs =>
    if isOpener c then follow? (c :: own) { n with opened := c :: n.opened } cs
    else if isCloser c then
      match own with
      | _ :: rest => follow? rest { n with opened := n.opened.drop 1 } cs
      | [] => n.close?.bind fun n => follow? [] n cs
    else follow? own n cs

def track? (line : Nat) (n : Nesting) (code : Text) : Option (Nesting × List Char) := do
  let (after, own) ← n.follow? [] code
  match own with
  | [] => return (after, [])
  | c :: own => return ({ after with levels := .bracket line (c :: own) :: after.levels }, c :: own)

end Nesting

def levelsAtStatement? (s : IndentState) (code : Text) (width : Nat) : Option (List Level) := do
  let group ← topGroup? s.nesting.levels
  let levels := s.nesting.levels
  let levels :=
    match levels, s.lastBlock with
    | top :: rest, some line => if code.head? == some '\x7b' && top.isBlockOf line then rest
        else levels
    | _, _ => levels
  return if group.isSome then levels else Nesting.endBlocks width levels

def levelsOfLine? (s : IndentState) (code : Text) (width : Nat) : Option (List Level) :=
  if s.continuation then some s.nesting.levels else levelsAtStatement? s code width

def layCode? (options : FormatOptions) (s : IndentState) (number : Nat) (line : ScriptLine)
    (code : Text) :
    Option (IndentedLine × IndentState) := do
  let text := line.text
  let leading := leadingBlanks text
  let width := Text.columnAfter options.indentSize leading
  let group ← topGroup? s.nesting.levels
  let levels ← levelsOfLine? s code width
  let lastBlock := if s.continuation then s.lastBlock else none
  let statementWidth := if s.continuation || group.isSome then s.statementWidth else width
  let closers := (code.takeWhile isCloser).length
  let nesting ← Nesting.closeMany? closers { s.nesting with levels }
  let spaced := spaceLine options s.nesting.opened (line.cells.drop leading.length)
  let indent := if s.continuation then leading
    else (List.replicate nesting.levels.length (indentUnit options)).flatten
  let laid := Text.trimRight Text.isSpace (indent ++ spaced)
  let (nesting, own) ← nesting.track? number (code.drop closers)
  let insideGroup :=
    match group with
    | some (.bracket opened _) => nesting.levels.any (Level.isBracketOf opened)
    | _ => false
  let opens := opensBlock code && !insideGroup && own.head? != some '\x7b'
  let levels := if opens then pushBlock number statementWidth own nesting.levels else nesting.levels
  let group ← topGroup? levels
  let continuation := !group.isSome && !"=>".toList.isSuffixOf code && endsOpen code
  return ({ text := laid
            reindented := leadingBlanks laid != leading
            respaced := laid.dropWhile Text.isBlank != Text.strip text },
    { nesting := { nesting with levels }
      continuation
      statementWidth
      lastBlock := if opens && own.isEmpty then some number else lastBlock })

def layLine? (options : FormatOptions) (s : IndentState) (number : Nat) (line : ScriptLine) :
    Option (IndentedLine × IndentState) :=
  let text := line.text
  let code := Text.strip line.masked
  if Text.isAllSpace text then some (⟨[], !text.isEmpty, false⟩, s)
  else if line.inComment then do
    let (nesting, _) ← s.nesting.track? number code
    return (⟨Text.trimRight Text.isSpace text, false, false⟩, { s with nesting })
  else if code.isEmpty then some (⟨Text.trimRight Text.isSpace text, false, false⟩, s)
  else layCode? options s number line code

def layLines? (options : FormatOptions) (s : IndentState) (number : Nat) :
    List ScriptLine → Option (List IndentedLine)
  | [] => some []
  | line :: rest => do
    let (laid, s) ← layLine? options s number line
    let laidRest ← layLines? options s (number + 1) rest
    return laid :: laidRest

def indentLines? (options : FormatOptions) (t : Text) : Option (List IndentedLine) :=
  layLines? options .start 1 (scriptLines t)

/-- Formats a script, unless a read fails. -/
def format? (fallback : ScriptVersion) (options : FormatOptions) (script : Text) :
    Option FormatResult := do
  let endings := normalizeLineEndings script
  let marked := stageIf options.updateVersionComment (syncVersionComment fallback) endings.text
  let braced := stageIf options.bracesOnNewLine moveBraces marked.text
  let laid ← indentLines? options braced.text
  let reindented := countedChange (laid.countP fun l => l.reindented) fun n =>
    s!"Re-indented {n} line(s)"
  let respaced := countedChange (laid.countP fun l => l.respaced) fun n =>
    s!"Normalized spacing on {n} line(s)"
  let collapsed :=
    stageIf options.collapseBlankLines collapseBlankLines (Text.unlines (laid.map fun l => l.text))
  let aligned := stageIf options.alignComments alignComments collapsed.text
  return {
    formatted := aligned.text
    changes :=
      [endings.change, marked.change, braced.change, reindented, respaced, collapsed.change,
        aligned.change].filterMap id
    warnings := lengthWarnings "PS4001" options.maxLineLength aligned.text }

section Reads

/-- The innermost opener of a level that holds one is read. -/
theorem isGroup?_eq {level : Level} (h : level.Held) : level.isGroup? = some level.isGroup := by
  cases level with
  | block line width => rfl
  | bracket line openers =>
    cases openers with
    | nil => exact absurd rfl (h rfl)
    | cons c openers => rfl

theorem topGroup?_eq {levels : List Level} (h : ∀ level ∈ levels, level.Held) :
    topGroup? levels = some (levels.head?.filter Level.isGroup) := by
  cases levels with
  | nil => rfl
  | cons top rest =>
    rw [topGroup?, isGroup?_eq (h top List.mem_cons_self), List.head?_cons, Option.map_some]
    simp [Option.filter]

theorem dropOpener?_eq {levels : List Level} (h : ∀ level ∈ levels, level.Held)
    (hany : levels.any Level.isBracket = true) :
    Nesting.dropOpener? levels = some (Nesting.dropOpener levels) := by
  induction levels with
  | nil => cases hany
  | cons level rest ih =>
    obtain ⟨hlevel, hrest⟩ := List.forall_mem_cons.mp h
    cases level with
    | block line width => exact ih hrest hany
    | bracket line openers =>
      match openers with
      | [] => exact absurd rfl (hlevel rfl)
      | [_] => rfl
      | _ :: _ :: _ => rfl

namespace Nesting

variable {own : List Char} {n : Nesting}

theorem Sound.close?_eq (h : Sound own n) : n.close? = some n.close := by
  rw [Nesting.close?, Nesting.close]
  split
  case isTrue hany =>
    rw [dropOpener?_eq h.held hany]
    rfl
  case isFalse => rfl

theorem Sound.closeMany?_eq (h : Sound [] n) (k : Nat) :
    closeMany? k n = some (Nesting.closeMany k n) := by
  induction k generalizing n with
  | zero => rfl
  | succ k ih =>
    change n.close?.bind (closeMany? k) = _
    rw [h.close?_eq]
    exact ih h.close

theorem follow?_cons (own : List Char) (n : Nesting) (c : Char) (code : Text) :
    n.follow? own (c :: code) =
    if isOpener c then follow? (c :: own) { n with opened := c :: n.opened } code
    else if isCloser c then
      match own with
      | _ :: rest => follow? rest { n with opened := n.opened.drop 1 } code
      | [] => n.close?.bind fun n => follow? [] n code
    else follow? own n code := by
  cases own <;> rfl

theorem Sound.follow?_eq (h : Sound own n) (code : Text) :
    n.follow? own code = some (n.follow own code) := by
  induction code generalizing own n with
  | nil => rfl
  | cons c code ih =>
    rw [follow?_cons, follow_cons]
    by_cases hopener : isOpener c = true
    · rw [if_pos hopener, if_pos hopener]
      exact ih ⟨h.held, by rw [h.opened]; rfl⟩
    rw [if_neg hopener, if_neg hopener]
    by_cases hcloser : isCloser c = true
    · rw [if_pos hcloser, if_pos hcloser]
      cases own with
      | nil =>
        change n.close?.bind (fun n => n.follow? [] code) = _
        rw [h.close?_eq]
        exact ih h.close
      | cons d own => exact ih ⟨h.held, by rw [h.opened]; rfl⟩
    · rw [if_neg hcloser, if_neg hcloser]
      exact ih h

theorem Sound.track?_eq (h : Sound [] n) (line : Nat) (code : Text) :
    n.track? line code = some (n.track line code) := by
  rw [Nesting.track?, Nesting.track, h.follow?_eq]
  cases n.follow [] code with
  | mk after own =>
    cases own <;> rfl

end Nesting

section Lines

variable {options : FormatOptions} {s : IndentState} {number : Nat} {line : ScriptLine}
    {code : Text}

theorem isSome_group (levels : List Level) :
    (levels.head?.filter Level.isGroup).isSome = levels.head?.any Level.isGroup := by
  cases levels with
  | nil => rfl
  | cons top rest => cases h : top.isGroup <;> simp [Option.filter, h]

theorem levelsAtStatement?_eq (h : s.nesting.Sound []) (code : Text) (width : Nat) :
    levelsAtStatement? s code width = some (levelsAtStatement s code width) := by
  rw [levelsAtStatement?, topGroup?_eq h.held, levelsAtStatement, ← isSome_group]
  rfl

theorem layCode?_eq (h : s.nesting.Sound []) :
    layCode? options s number line code = some (layCode options s number line code) := by
  have hlevels (width : Nat) : levelsOfLine? s code width =
      some (if s.continuation then s.nesting.levels else levelsAtStatement s code width) := by
    rw [levelsOfLine?, levelsAtStatement?_eq h]
    split <;> rfl
  have hleft (width : Nat) := h.levelsOfLine code width
  have hclosed (width : Nat) := ((hleft width).closeMany (code.takeWhile isCloser).length).1
  unfold layCode?
  rw [topGroup?_eq h.held]
  simp only [Option.bind_eq_bind, Option.bind_some, hlevels, (hleft _).closeMany?_eq,
    (hclosed _).track?_eq]
  -- The levels that are left at the end of the line are sound as well.
  rw [topGroup?_eq ?held]
  case held => exact (@sound_layCode options s number line code h).1.held
  unfold layCode
  simp only [Option.bind_some, isSome_group]
  rfl

theorem layLine?_eq (options : FormatOptions) (h : s.nesting.Sound []) (number : Nat)
    (line : ScriptLine) :
    layLine? options s number line = some (layLine options s number line) := by
  rw [layLine?, layLine]
  split
  case isTrue => rfl
  split
  case isTrue =>
    rw [h.track?_eq]
    rfl
  split
  case isTrue => rfl
  case isFalse => exact layCode?_eq h

theorem layLines?_eq (options : FormatOptions) (h : s.nesting.Sound []) (number : Nat)
    {lines : List ScriptLine} (hlines : ∀ line ∈ lines, ShowsBrackets line) :
    layLines? options s number lines = some (layLines options s number lines) := by
  induction lines generalizing s number with
  | nil => rfl
  | cons line lines ih =>
    obtain ⟨hline, hlines⟩ := List.forall_mem_cons.mp hlines
    rw [layLines?, layLine?_eq options h, layLines]
    change (layLines? options (layLine options s number line).2 (number + 1) lines).bind _ = _
    rw [ih (sound_layLine options h number hline).1 (number + 1) hlines]
    rfl

theorem indentLines?_eq (options : FormatOptions) (t : Text) :
    indentLines? options t = some (indentLines options t) :=
  layLines?_eq options Nesting.sound_empty 1 showsBrackets_scriptLines

end Lines

theorem format?_eq (fallback : ScriptVersion) (options : FormatOptions) (script : Text) :
    format? fallback options script = some (format fallback options script) := by
  rw [format?]
  simp only [indentLines?_eq]
  rfl

/-- No read of the stack or of an opener fails, so the formatter returns for every script. After any
number of lines of any text each bracket level has an opener, the openers of the levels from the
outermost to the innermost are the open brackets, and these are the openers that the report of the
brackets leaves over for the lines so far. -/
theorem format_reads_in_range (fallback : ScriptVersion) (options : FormatOptions) :
    (∀ script, format? fallback options script = some (format fallback options script)) ∧
      ∀ (t : Text) (k : Nat) (n : Nesting), n =
        (stateAfter options .start 1 ((scriptLines t).take k)).nesting →
        (∀ level ∈ n.levels, level.isBracket = true → level.openers ≠ []) ∧
        (n.levels.reverse.flatMap fun level => level.openers.reverse) = n.opened.reverse ∧
        n.opened.reverse = (matchBrackets (Text.unlines ((Text.lines t).take k))).unclosed.map
          fun o => o.kind.opener := by
  constructor
  · exact format?_eq fallback options
  · rintro t k n rfl
    obtain ⟨hsound, hopened⟩ := sound_afterLines options t k
    refine ⟨hsound.held, ?_, hopened⟩
    rw [hsound.opened, List.nil_append, openersOf, List.reverse_flatMap]
    rfl

end Reads

end PineTools.Layout
