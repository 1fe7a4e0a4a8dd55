import Mathlib.Data.List.DropRight
import Mathlib.Data.List.TakeWhile
import PineTools.Proofs.Layout.Preservation

/-! What every formatted script is like. The stages are taken as functions on lists of lines. No
line of their result ends in white space, redundant blank lines are gone, runs of comment lines
share their indentation, and a version is stated where that was wanted; formatting again changes
nothing about any of this. -/
namespace PineTools.Layout

section Stages

variable (fallback : ScriptVersion) (options : FormatOptions)

def laidLines (ls : List Text) : List Text := (layLines options .start 1 (readLines .start ls)).map
    fun l => l.text

def alignedLines (ls : List Text) : List Text := alignFrom none (readLines .start ls)

def linesIf (wanted : Bool) (stage : List Text → List Text) (ls : List Text) : List Text :=
  if wanted then stage ls else ls

def formatLines (ls : List Text) : List Text :=
  let marked := linesIf options.updateVersionComment (markedLines fallback) ls
  let braced := linesIf options.bracesOnNewLine (braceLines .start) marked
  let collapsed := linesIf options.collapseBlankLines (collapseFrom false)
    (laidLines options braced)
  linesIf options.alignComments alignedLines collapsed

end Stages

/-- Lines of a script: at least one, and none with a newline. -/
def AreLines (ls : List Text) : Prop := ls ≠ [] ∧ ∀ l ∈ ls, Text.OneLine l

theorem areLines_lines (t : Text) :
    AreLines (Text.lines t) := ⟨Text.lines_ne_nil t, fun _ => Text.oneLine_of_mem_lines⟩

theorem AreLines.lines_unlines {ls : List Text} (h : AreLines ls) :
    Text.lines (Text.unlines ls) = ls :=
  Text.lines_unlines h.1 h.2

theorem areLines_of_allStandFor {strict : Prop} {m : Mode} {news olds : List Text}
    (h : AllStandFor strict m news olds) (hold : AreLines olds) : AreLines news :=
  ⟨h.ne_nil hold.1, h.oneLine⟩

theorem allStandFor_laidLines (options : FormatOptions) {ls : List Text} (h : AreLines ls) :
    AllStandFor (options.spacesAroundOperators = true) .start (laidLines options ls) ls :=
  allStandFor_layLines options .start 1 false h.2

theorem allStandFor_alignedLines (strict : Prop) {ls : List Text} (h : AreLines ls) :
    AllStandFor strict .start (alignedLines ls) ls :=
  allStandFor_alignFrom strict (fun i e => by cases e) false h.2

theorem areLines_collapseFrom {ls : List Text} (h : AreLines ls) :
    AreLines (collapseFrom false ls) :=
  ⟨collapseFrom_ne_nil false h.1, fun l hl => h.2 l ((collapseFrom_sublist false ls).mem hl)⟩

theorem areLines_braceLines {ls : List Text} (h : AreLines ls) : AreLines (braceLines .start ls) :=
  ⟨braceLines_ne_nil _ h.1, (braceLines_keeps false h.2).1⟩

theorem areLines_markedLines (fallback : ScriptVersion) {ls : List Text} (h : AreLines ls) :
    AreLines (markedLines fallback ls) := by
  obtain ⟨before, after, old, new, rfl, hnew, -, e⟩ | ⟨-, e⟩ := markedLines_cases fallback ls
  · obtain ⟨digits, hlone, rfl⟩ := Option.map_eq_some_iff.mp hnew
    obtain ⟨hbefore, hrest⟩ := List.forall_mem_append.mp h.2
    obtain ⟨hold, hafter⟩ := List.forall_mem_cons.mp hrest
    rw [e]
    refine ⟨by simp, List.forall_mem_append.mpr ⟨hbefore, List.forall_mem_cons.mpr ⟨?_, hafter⟩⟩⟩
    exact (standsFor_marker True false hlone hold).oneLine
  · rw [e]
    split
    · exact h
    · exact ⟨List.cons_ne_nil _ _, List.forall_mem_cons.mpr ⟨(marker_line fallback).1, h.2⟩⟩

theorem areLines_linesIf {stage : List Text → List Text} (hstage : ∀ ls, AreLines ls →
    AreLines (stage ls)) (wanted : Bool) {ls : List Text} (h : AreLines ls) :
      AreLines (linesIf wanted stage ls) := by
  cases wanted with
  | false => exact h
  | true => exact hstage ls h

theorem stageIf_unlines {stage : Text → Staged} {lineStage : List Text → List Text}
    (h : ∀ t, (stage t).text = Text.unlines (lineStage (Text.lines t))) (wanted : Bool)
    {ls : List Text} (hls : AreLines ls) :
    (stageIf wanted stage (Text.unlines ls)).text = Text.unlines (linesIf wanted lineStage ls) := by
  cases wanted with
  | false => rfl
  | true =>
    rw [stageIf, if_pos rfl, h, hls.lines_unlines]
    rfl

theorem moveBraces_lines (t : Text) :
    (moveBraces t).text = Text.unlines (braceLines .start (Text.lines t)) := by
  rw [moveBraces, scriptLines_eq]
  rfl

theorem alignComments_lines (t : Text) :
    (alignComments t).text = Text.unlines (alignedLines (Text.lines t)) := by
  rw [alignComments, scriptLines_eq]
  rfl

section Format

variable (fallback : ScriptVersion) (options : FormatOptions)

theorem areLines_braced {ls : List Text} (h : AreLines ls) :
    AreLines (linesIf options.bracesOnNewLine (braceLines .start)
      (linesIf options.updateVersionComment (markedLines fallback) ls)) :=
  areLines_linesIf (fun _ => areLines_braceLines) _
    (areLines_linesIf (fun _ => areLines_markedLines fallback) _ h)

theorem areLines_collapsed {ls : List Text} (h : AreLines ls) :
    AreLines (linesIf options.collapseBlankLines (collapseFrom false) (laidLines options ls)) :=
  areLines_linesIf (fun _ => areLines_collapseFrom) _
    (areLines_of_allStandFor (allStandFor_laidLines options h) h)

theorem areLines_formatLines {ls : List Text} (h : AreLines ls) :
    AreLines (formatLines fallback options ls) :=
  areLines_linesIf (fun _ h => areLines_of_allStandFor (allStandFor_alignedLines True h) h) _
    (areLines_collapsed options (areLines_braced fallback options h))

theorem format_lines (script : Text) : (format fallback options script).formatted =
    Text.unlines (formatLines fallback options (Text.lines (Text.normalizeBreaks script))) := by
  have hls := areLines_lines (Text.normalizeBreaks script)
  have htext := (Text.unlines_lines (Text.normalizeBreaks script)).symm
  rw [format]
  simp only [normalizeLineEndings_text]
  generalize Text.lines (Text.normalizeBreaks script) = ls at hls htext ⊢
  have hbraced := areLines_braced fallback options hls
  rw [htext, stageIf_unlines (syncVersionComment_lines fallback) _ hls,
    stageIf_unlines moveBraces_lines _
      (areLines_linesIf (fun _ => areLines_markedLines fallback) _ hls),
    indentLines, scriptLines_eq, hbraced.lines_unlines, ← laidLines,
    stageIf_unlines (fun _ => rfl) _
      (areLines_of_allStandFor (allStandFor_laidLines options hbraced) hbraced),
    stageIf_unlines alignComments_lines _ (areLines_collapsed options hbraced)]
  rfl

end Format

/-- Lines without carriage returns. -/
def NoReturns (ls : List Text) : Prop := ∀ l ∈ ls, '\r' ∉ l

theorem StandsFor.noReturn {strict : Prop} {m : Mode} {new old : Text}
    (h : StandsFor strict m new old) (hold : '\r' ∉ old) :
    '\r' ∉ new := by
  intro k
  rcases h.chars _ k with k | k
  · exact hold k
  · exact absurd k (by decide)

theorem AllStandFor.noReturns {strict : Prop} {m : Mode} {news olds : List Text}
    (h : AllStandFor strict m news olds) (hold : NoReturns olds) : NoReturns news := by
  induction h with
  | nil => exact hold
  | cons h _ ih =>
    obtain ⟨hfirst, hrest⟩ := List.forall_mem_cons.mp hold
    exact List.forall_mem_cons.mpr ⟨h.noReturn hfirst, ih hrest⟩

theorem noReturns_braceLines (inComment : Bool) {ls : List Text} (h : NoReturns ls) :
    NoReturns (braceLines (.ofLine inComment) ls) := by
  induction ls generalizing inComment with
  | nil => exact h
  | cons l ls ih =>
    obtain ⟨hl, hls⟩ := List.forall_mem_cons.mp h
    rw [braceLines_cons]
    refine List.forall_mem_append.mpr ⟨?_, ih _ hls⟩
    cases hcut : cutBrace? (scriptLine (.ofLine inComment) l) with
    | none => exact List.forall_mem_singleton.mpr hl
    | some new =>
      obtain ⟨-, pre, rest, b, e, -, rfl, -⟩ := cutBrace?_eq_some hcut
      refine List.forall_mem_cons.mpr ⟨fun k => ?_, List.forall_mem_singleton.mpr fun k => ?_⟩
      · exact hl (e ▸ List.mem_append_left _ (Text.mem_of_mem_trimRight k))
      · rcases List.mem_append.mp k with k | k
        · exact hl ((List.takeWhile_sublist _).mem k)
        · exact hl (e ▸ List.mem_append_right _ k)

theorem noReturns_markedLines (fallback : ScriptVersion) {ls : List Text} (hls : AreLines ls)
    (h : NoReturns ls) :
    NoReturns (markedLines fallback ls) := by
  obtain ⟨before, after, old, new, rfl, hnew, -, e⟩ | ⟨-, e⟩ := markedLines_cases fallback ls
  · obtain ⟨digits, hlone, rfl⟩ := Option.map_eq_some_iff.mp hnew
    obtain ⟨hbefore, hrest⟩ := List.forall_mem_append.mp h
    obtain ⟨hold, hafter⟩ := List.forall_mem_cons.mp hrest
    have hone : Text.OneLine old := hls.2 old (by simp)
    rw [e]
    exact List.forall_mem_append.mpr ⟨hbefore, List.forall_mem_cons.mpr
      ⟨(standsFor_marker True false hlone hone).noReturn hold, hafter⟩⟩
  · rw [e]
    split
    · exact h
    · refine List.forall_mem_cons.mpr ⟨?_, h⟩
      cases fallback <;> decide

theorem linesIf_of {P : List Text → Prop} {stage : List Text → List Text} {ls : List Text}
    (h : P ls) (hstage : P (stage ls)) (wanted : Bool) : P (linesIf wanted stage ls) := by
  cases wanted with
  | false => exact h
  | true => exact hstage

theorem noReturns_formatLines (fallback : ScriptVersion) (options : FormatOptions) {ls : List Text}
    (hls : AreLines ls) (h : NoReturns ls) : NoReturns (formatLines fallback options ls) := by
  have hmarked := linesIf_of h (noReturns_markedLines fallback hls h) options.updateVersionComment
  have hbraced := linesIf_of hmarked (noReturns_braceLines false hmarked) options.bracesOnNewLine
  have hlaid :=
    (allStandFor_laidLines options (areLines_braced fallback options hls)).noReturns hbraced
  have hcollapsed :=
    linesIf_of hlaid (fun l hl => hlaid l ((collapseFrom_sublist false _).mem hl))
      options.collapseBlankLines
  exact linesIf_of hcollapsed
    ((allStandFor_alignedLines True
      (areLines_collapsed options (areLines_braced fallback options hls))).noReturns hcollapsed)
    options.alignComments

theorem not_mem_normalizeBreaks (t : Text) : '\r' ∉ Text.normalizeBreaks t := by
  fun_induction Text.normalizeBreaks t with
  | case1 => exact List.not_mem_nil
  | case2 cs ih =>
    intro k
    rcases List.mem_cons.mp k with k | k
    · exact absurd k (by decide)
    · exact ih k
  | case3 c cs hcr ih =>
    intro k
    rcases List.mem_cons.mp k with k | k
    · split at k
      · exact absurd k (by decide)
      · exact absurd k.symm ‹_›
    · exact ih k

theorem noReturns_lines {t : Text} : NoReturns (Text.lines t) ↔ '\r' ∉ t := by
  induction t using Text.lines_induction with
  | last l hl =>
    rw [Text.lines_of_oneLine hl]
    exact List.forall_mem_singleton
  | more l t hl ih =>
    rw [Text.lines_append_newline hl, List.mem_append, List.mem_cons, not_or, not_or]
    refine Iff.trans List.forall_mem_cons (and_congr Iff.rfl (ih.trans ?_))
    exact (and_iff_right (by decide)).symm

theorem normalizeBreaks_format (fallback : ScriptVersion) (options : FormatOptions)
    (script : Text) :
    Text.normalizeBreaks (format fallback options script).formatted =
      (format fallback options script).formatted := by
  refine Text.normalizeBreaks_of_not_mem ?_
  have hls := areLines_lines (Text.normalizeBreaks script)
  rw [format_lines, ← noReturns_lines, (areLines_formatLines fallback options hls).lines_unlines]
  exact noReturns_formatLines fallback options hls
    (noReturns_lines.mpr (not_mem_normalizeBreaks script))

/-- The line does not end in white space. -/
def Trimmed (l : Text) : Prop := ∀ c, l.getLast? = some c → Text.isSpace c = false

theorem trimmed_nil : Trimmed [] := fun c h => by cases h

theorem trimmed_trimRight (l : Text) : Trimmed (Text.trimRight Text.isSpace l) := by
  intro c h
  rw [Text.trimRight, List.getLast?_reverse] at h
  have := List.head?_dropWhile_not Text.isSpace l.reverse
  rw [h] at this
  simpa using this

theorem Trimmed.trimRight {l : Text} (h : Trimmed l) : Text.trimRight Text.isSpace l = l := by
  rcases List.eq_nil_or_concat l with rfl | ⟨l, c, rfl⟩
  · rfl
  · rw [List.concat_eq_append] at h ⊢
    have hc := h c List.getLast?_concat
    rw [Text.trimRight, List.reverse_append, List.reverse_cons, List.reverse_nil, List.nil_append,
      List.singleton_append, List.dropWhile_cons_of_neg (by simp [hc]), List.reverse_cons,
      List.reverse_reverse]

theorem Trimmed.append {a b : Text} (h : Trimmed b) (hne : b ≠ []) : Trimmed (a ++ b) := by
  intro c hc
  rw [List.getLast?_append, List.getLast?_eq_some_getLast hne, Option.some_or] at hc
  exact h c ((List.getLast?_eq_some_getLast hne).trans hc)

theorem Trimmed.of_append {a b : Text} (h : Trimmed (a ++ b)) : Trimmed b := by
  intro c hc
  refine h c ?_
  rw [List.getLast?_append, hc]
  rfl

theorem Trimmed.eq_nil {l : Text} (h : Trimmed l) (hwhite : Text.isAllSpace l = true) : l = [] := by
  rcases List.eq_nil_or_concat l with rfl | ⟨l, c, rfl⟩
  · rfl
  · rw [List.concat_eq_append] at h hwhite
    have hc := h c List.getLast?_concat
    rw [List.all_eq_true.mp hwhite c (by simp)] at hc
    cases hc

theorem trimmed_layLine (options : FormatOptions) (s : IndentState) (number : Nat)
    (line : ScriptLine) :
    Trimmed (layLine options s number line).1.text := by
  rw [layLine]
  split
  · exact trimmed_nil
  split
  · exact trimmed_trimRight _
  split
  · exact trimmed_trimRight _
  · obtain ⟨indent, -, e⟩ := layCode_text options s number line (Text.strip line.masked)
    rw [e]
    exact trimmed_trimRight _

theorem trimmed_laidLines (options : FormatOptions) (ls : List Text) :
    ∀ l ∈ laidLines options ls, Trimmed l := by
  rw [laidLines]
  generalize IndentState.start = s
  generalize 1 = number
  generalize Mode.start = m
  induction ls generalizing s number m with
  | nil => exact List.forall_mem_nil _
  | cons l ls ih =>
    rw [readLines_cons]
    exact List.forall_mem_cons.mpr ⟨trimmed_layLine options s number _, ih _ _ _⟩

/-- Behind its blanks a comment line starts with two slashes or other white space. -/
theorem isCommentLine_rest_ne_nil {m : Mode} {l : Text}
    (h : isCommentLine (scriptLine m l) = true) :
    l.dropWhile Text.isBlank ≠ [] := by
  rw [isCommentLine_scriptLine, Bool.and_eq_true] at h
  intro e
  have hblank : ∀ c ∈ l, Text.isBlank c = true := List.dropWhile_eq_nil_iff.mp e
  have hnil : l.dropWhile Text.isSpace = [] :=
    List.dropWhile_eq_nil_iff.mpr (Text.white_of_blanks hblank)
  rw [hnil] at h
  exact absurd h.1 (by decide)

theorem trimmed_alignFrom (indent : Option Text) (m : Mode) {ls : List Text}
    (h : ∀ l ∈ ls, Trimmed l) :
    ∀ l ∈ alignFrom indent (readLines m ls), Trimmed l := by
  induction ls generalizing indent m with
  | nil => exact List.forall_mem_nil _
  | cons l ls ih =>
    obtain ⟨hl, hls⟩ := List.forall_mem_cons.mp h
    rw [readLines_cons, alignFrom]
    split
    case h_1 i hi hcomment =>
      rw [scriptLine_text]
      refine List.forall_mem_cons.mpr
        ⟨Trimmed.append ?_ (isCommentLine_rest_ne_nil hcomment), ih _ _ hls⟩
      rw [leadingBlanks_append l] at hl
      exact hl.of_append
    case h_2 =>
      rw [scriptLine_text]
      exact List.forall_mem_cons.mpr ⟨hl, ih _ _ hls⟩

theorem trimmed_formatLines (fallback : ScriptVersion) (options : FormatOptions) (ls : List Text) :
    ∀ l ∈ formatLines fallback options ls, Trimmed l := by
  have hlaid := trimmed_laidLines options (linesIf options.bracesOnNewLine (braceLines .start)
    (linesIf options.updateVersionComment (markedLines fallback) ls))
  have hcollapsed := @linesIf_of (fun ls => ∀ l ∈ ls, Trimmed l) (collapseFrom false) _ hlaid
    (fun l hl => hlaid l ((collapseFrom_sublist false _).mem hl)) options.collapseBlankLines
  exact @linesIf_of (fun ls => ∀ l ∈ ls, Trimmed l) alignedLines _ hcollapsed
    (trimmed_alignFrom none _ hcollapsed)
    options.alignComments

/-- No blank line follows another, except at the end. `keptBlank` tells that a blank line stands
before. -/
def Collapsed (keptBlank : Bool) : List Text → Prop
  | [] => True
  | [_] => True
  | l :: rest => ¬ (Text.isAllSpace l = true ∧ keptBlank = true) ∧
  Collapsed (Text.isAllSpace l) rest

theorem collapsed_collapseFrom (keptBlank : Bool) (ls : List Text) :
    Collapsed keptBlank (collapseFrom keptBlank ls) := by
  fun_induction collapseFrom keptBlank ls with
  | case1 => trivial
  | case2 => trivial
  | case3 keptBlank l rest hrest hblank ih =>
    rw [(Bool.and_eq_true_iff.mp hblank).2]
    exact ih
  | case4 keptBlank l rest hrest hblank ih =>
    obtain ⟨l', rest', e⟩ :=
      List.exists_cons_of_ne_nil (collapseFrom_ne_nil (Text.isAllSpace l) hrest)
    rw [e] at ih ⊢
    exact ⟨fun h => hblank (by rw [h.1, h.2]; rfl), ih⟩

theorem Collapsed.fixed {keptBlank : Bool} {ls : List Text} (h : Collapsed keptBlank ls) :
    collapseFrom keptBlank ls = ls := by
  fun_induction collapseFrom keptBlank ls with
  | case1 => rfl
  | case2 => rfl
  | case3 keptBlank l rest hrest hblank ih =>
    obtain ⟨l', rest', rfl⟩ := List.exists_cons_of_ne_nil hrest
    exact absurd (Bool.and_eq_true_iff.mp hblank) h.1
  | case4 keptBlank l rest hrest hblank ih =>
    obtain ⟨l', rest', rfl⟩ := List.exists_cons_of_ne_nil hrest
    rw [ih h.2]

theorem Collapsed.congr {keptBlank : Bool} {ls ls' : List Text} (h : Collapsed keptBlank ls)
    (e : ls'.map Text.isAllSpace = ls.map Text.isAllSpace) : Collapsed keptBlank ls' := by
  induction ls generalizing ls' keptBlank with
  | nil =>
    rw [List.map_eq_nil_iff.mp e]
    trivial
  | cons l rest ih =>
    obtain ⟨l', rest', rfl, hl, hrest⟩ := List.map_eq_cons_iff.mp e
    cases rest with
    | nil =>
      rw [List.map_eq_nil_iff.mp hrest]
      trivial
    | cons k rest =>
      obtain ⟨k', rest'', rfl, -, -⟩ := List.map_eq_cons_iff.mp hrest
      refine ⟨by rw [hl]; exact h.1, ?_⟩
      rw [hl]
      exact ih h.2 hrest

theorem AllStandFor.blanks {strict : Prop} {m : Mode} {news olds : List Text}
    (h : AllStandFor strict m news olds) :
    news.map Text.isAllSpace = olds.map Text.isAllSpace := by
  induction h with
  | nil => rfl
  | cons h _ ih => rw [List.map_cons, List.map_cons, Text.isAllSpace_of_solid h.solid, ih]

theorem alignFrom_other (indent : Option Text) {line : ScriptLine} (h : isCommentLine line = false)
    (rest : List ScriptLine) :
    alignFrom indent (line :: rest) = line.text :: alignFrom none rest := by
  rw [alignFrom, h]
  split
  · rename_i heq
    cases heq
  · rfl

theorem alignFrom_comment {indent : Option Text} {line : ScriptLine} (h : isCommentLine line = true)
    {rest : List ScriptLine} {i : Text} (hi : indent.or (runIndent (line :: rest)) = some i) :
    alignFrom indent (line :: rest) = (i ++ line.text.dropWhile Text.isBlank) :: alignFrom
      (some i) rest := by
  rw [alignFrom, hi, h]

theorem exists_indent (indent : Option Text) {line : ScriptLine} (h : isCommentLine line = true)
    (rest : List ScriptLine) :
    ∃ i, indent.or (runIndent (line :: rest)) = some i := by
  cases indent with
  | some i => exact ⟨i, rfl⟩
  | none => exact ⟨_, by rw [Option.none_or, runIndent, if_pos h]⟩

section Reindented

variable {i : Text} (hi : ∀ c ∈ i, Text.isBlank c = true) (l : Text)
include hi

theorem dropWhile_reindented :
    (i ++ l.dropWhile Text.isBlank).dropWhile Text.isBlank = l.dropWhile Text.isBlank := by
  rw [List.dropWhile_append_of_pos hi, List.dropWhile_idempotent]

theorem leadingBlanks_reindented : leadingBlanks (i ++ l.dropWhile Text.isBlank) = i := by
  have h := leadingBlanks_append (i ++ l.dropWhile Text.isBlank)
  rw [dropWhile_reindented hi] at h
  exact (List.append_cancel_right h).symm

theorem isCommentLine_reindented (m : Mode) :
    isCommentLine (scriptLine m (i ++ l.dropWhile Text.isBlank)) =
      isCommentLine (scriptLine m l) := by
  have hspace : ∀ c ∈ i, Text.isSpace c = true := Text.white_of_blanks hi
  have hlead : ∀ c ∈ leadingBlanks l, Text.isSpace c = true := fun c hc =>
    Text.isSpace_of_isBlank (blank_of_leadingBlanks l c hc)
  have hl : l.dropWhile Text.isSpace = (l.dropWhile Text.isBlank).dropWhile Text.isSpace := by
    have h : (leadingBlanks l ++ l.dropWhile Text.isBlank).dropWhile Text.isSpace = _ :=
      List.dropWhile_append_of_pos hlead
    rwa [← leadingBlanks_append] at h
  rw [isCommentLine_scriptLine, isCommentLine_scriptLine, List.dropWhile_append_of_pos hspace, ← hl]

end Reindented

/-- A line of code in its place stands where it did, so the next line is read in the same mode. -/
theorem StandsFor.entry {m : Mode} {new old : Text} (h : StandsFor True m new old) :
    (m.after none new).entry = (m.after none old).entry := by
  rw [entry_of_substance, entry_of_substance, h.substance trivial]

theorem standsFor_align {i l : Text} (hi : ∀ c ∈ i, Text.isBlank c = true) (hl : Text.OneLine l) :
    StandsFor True (.ofLine false) (i ++ l.dropWhile Text.isBlank) l := by
  have h := @standsFor_reindent True i (leadingBlanks l) _ hi (blank_of_leadingBlanks l)
    (oneLine_dropWhile hl Text.isBlank)
  rwa [← leadingBlanks_append] at h

theorem mode_of_isCommentLine {inComment : Bool} {l : Text}
    (h : isCommentLine (scriptLine (.ofLine inComment) l) = true) : inComment = false := by
  rw [isCommentLine_scriptLine, Mode.inBlock_ofLine, Bool.and_eq_true, Bool.not_eq_true'] at h
  exact h.2

theorem blank_of_indent_or {indent : Option Text} (hindent : ∀ i, indent = some i →
    ∀ c ∈ i, Text.isBlank c = true) {lines : List ScriptLine} {i : Text}
      (h : indent.or (runIndent lines) = some i) : ∀ c ∈ i, Text.isBlank c = true := by
  rcases Option.or_eq_some_iff.mp h with e | ⟨-, e⟩
  · exact hindent i e
  · exact blank_of_runIndent e

theorem leadingBlanks_of_run {i : Text} (hi : ∀ c ∈ i, Text.isBlank c = true) (inComment : Bool)
    {ls : List Text} (h : ∀ l ∈ ls, Text.OneLine l) :
    ∀ line ∈ (readLines (.ofLine inComment)
      (alignFrom (some i) (readLines (.ofLine inComment) ls))).takeWhile isCommentLine,
      leadingBlanks line.text = i := by
  induction ls generalizing inComment with
  | nil => exact List.forall_mem_nil _
  | cons l ls ih =>
    obtain ⟨hl, hls⟩ := List.forall_mem_cons.mp h
    rw [readLines_cons]
    cases hcomment : isCommentLine (scriptLine (.ofLine inComment) l) with
    | false =>
      rw [alignFrom_other _ hcomment, scriptLine_text, readLines_cons,
        List.takeWhile_cons_of_neg (by simp [hcomment])]
      exact List.forall_mem_nil _
    | true =>
      obtain rfl := mode_of_isCommentLine hcomment
      rw [alignFrom_comment hcomment rfl, scriptLine_text, readLines_cons,
        List.takeWhile_cons_of_pos (by rw [isCommentLine_reindented hi]; exact hcomment)]
      refine List.forall_mem_cons.mpr ⟨?_, ?_⟩
      · rw [scriptLine_text, leadingBlanks_reindented hi]
      · rw [(standsFor_align hi hl).entry, entry_of_substance]
        exact ih _ hls

theorem shortestOf_same {i : Text} {others : List Text} (h : ∀ t ∈ others, t = i) :
    shortestOf i others = i := by
  rcases List.mem_cons.mp (shortestOf_mem i others) with e | hmem
  · exact e
  · exact h _ hmem

theorem alignFrom_fixed {indent : Option Text} (hindent : ∀ i, indent = some i →
    ∀ c ∈ i, Text.isBlank c = true) (inComment : Bool) {ls : List Text}
      (h : ∀ l ∈ ls, Text.OneLine l) :
    alignFrom indent
      (readLines (.ofLine inComment) (alignFrom indent (readLines (.ofLine inComment) ls))) =
      alignFrom indent (readLines (.ofLine inComment) ls) := by
  induction ls generalizing indent inComment with
  | nil => rfl
  | cons l ls ih =>
    obtain ⟨hl, hls⟩ := List.forall_mem_cons.mp h
    rw [readLines_cons]
    cases hcomment : isCommentLine (scriptLine (.ofLine inComment) l) with
    | false =>
      rw [alignFrom_other _ hcomment, scriptLine_text, readLines_cons, alignFrom_other _ hcomment,
        scriptLine_text, entry_of_substance, ih (fun i e => by cases e) _ hls]
    | true =>
      obtain rfl := mode_of_isCommentLine hcomment
      obtain ⟨i, hi⟩ :=
        exists_indent indent hcomment (readLines ((Mode.ofLine false).after none l).entry ls)
      have hblank := blank_of_indent_or hindent hi
      have hcomment' :
          isCommentLine (scriptLine (.ofLine false) (i ++ l.dropWhile Text.isBlank)) = true := by
        rw [isCommentLine_reindented hblank]
        exact hcomment
      rw [alignFrom_comment hcomment hi, scriptLine_text, readLines_cons,
        (standsFor_align hblank hl).entry, entry_of_substance]
      have hrun := leadingBlanks_of_run hblank (substance (.ofLine false) [l]).inComment hls
      have hagain :
        indent.or (runIndent (scriptLine (.ofLine false) (i ++ l.dropWhile Text.isBlank) ::
          readLines (.ofLine (substance (.ofLine false) [l]).inComment)
            (alignFrom (some i)
              (readLines (.ofLine (substance (.ofLine false) [l]).inComment) ls)))) = some i := by
        cases indent with
        | some j =>
          cases hi
          rfl
        | none =>
          rw [Option.none_or, runIndent, if_pos hcomment', scriptLine_text,
            leadingBlanks_reindented hblank, shortestOf_same]
          intro t ht
          obtain ⟨line, hline, rfl⟩ := List.mem_map.mp ht
          exact hrun line hline
      rw [alignFrom_comment hcomment' hagain, scriptLine_text, dropWhile_reindented hblank,
        ih (fun j e => by cases e; exact hblank) _ hls]

theorem alignedLines_fixed {ls : List Text} (h : AreLines ls) :
    alignedLines (alignedLines ls) = alignedLines ls :=
  alignFrom_fixed (fun i e => by cases e) false h.2

/-- The line begins like a version comment. -/
def MarkerLine (l : Text) : Prop :=
  ∃ b₁ b₂ b₃ rest : Text, (∀ c ∈ b₁ ++ b₂ ++ b₃, Text.isBlank c = true) ∧
    l = b₁ ++ ("//".toList ++ (b₂ ++ ("@version".toList ++ (b₃ ++ ("=".toList ++ rest)))))

theorem discard_blanks {b : Text} (hb : ∀ c ∈ b, Text.isBlank c = true) {t : Text}
    (ht : t.head?.any Text.isBlank = false) :
    (discard Reader.blanks : Reader Char Unit) (b ++ t) = some ((), t) := by
  refine Reader.discard_eq_some.mpr ⟨b, t, Reader.run_eq_some.mpr ?_, rfl⟩
  change b = (b ++ t).takeWhile Text.isBlank ∧ t = (b ++ t).dropWhile Text.isBlank
  rw [List.takeWhile_append_of_pos hb, List.dropWhile_append_of_pos hb]
  cases t with
  | nil => simp
  | cons c cs =>
    have hc : ¬ Text.isBlank c = true := by simpa using ht
    rw [List.takeWhile_cons_of_neg hc, List.dropWhile_cons_of_neg hc]
    simp

theorem discard_word (w : String) (t : Text) :
    (discard (Reader.word w) : Reader Char Unit) (w.toList ++ t) = some ((), t) :=
  Reader.discard_eq_some.mpr ⟨w.toList, t, Reader.exactly_eq_some.mpr ⟨rfl, List.map_id _⟩, rfl⟩

theorem markerHead_isSome_iff (l : Text) : (markerHead l).isSome = true ↔ MarkerLine l := by
  constructor
  · intro h
    obtain ⟨⟨u, rest⟩, h⟩ := Option.isSome_iff_exists.mp h
    obtain ⟨b₁, b₂, b₃, hb, e⟩ := markerHead_eq_some h
    exact ⟨b₁, b₂, b₃, rest, hb, e⟩
  · rintro ⟨b₁, b₂, b₃, rest, hb, rfl⟩
    simp only [List.forall_mem_append] at hb
    refine Option.isSome_iff_exists.mpr ⟨((), rest), ?_⟩
    refine Reader.bind_eq_some.mpr ⟨_, _, discard_blanks hb.1.1 (by rfl), ?_⟩
    refine Reader.bind_eq_some.mpr ⟨_, _, discard_word "//" _, ?_⟩
    refine Reader.bind_eq_some.mpr ⟨_, _, discard_blanks hb.1.2 (by rfl), ?_⟩
    refine Reader.bind_eq_some.mpr ⟨_, _, discard_word "@version" _, ?_⟩
    exact Reader.bind_eq_some.mpr ⟨_, _, discard_blanks hb.2 (by rfl), discard_word "=" rest⟩

theorem trimRight_append_solid {c : Char} (hc : Text.isSpace c = false) (a b : Text) :
    Text.trimRight Text.isSpace (a ++ c :: b) = a ++ c :: Text.trimRight Text.isSpace b := by
  obtain ⟨white, e, hw⟩ := Text.trimRight_append_white Text.isSpace b
  have htrim : Trimmed (a ++ c :: Text.trimRight Text.isSpace b) := by
    refine Trimmed.append ?_ (List.cons_ne_nil _ _)
    by_cases hnil : Text.trimRight Text.isSpace b = []
    · rw [hnil]
      intro x hx
      cases hx
      exact hc
    · exact Trimmed.append (a := [c]) (trimmed_trimRight b) hnil
  have hwhite : ∀ {x : Text}, (∀ c ∈ white, Text.isSpace c = true) →
      Text.trimRight Text.isSpace (x ++ white) = Text.trimRight Text.isSpace x := by
    intro x hw
    rw [Text.trimRight, List.reverse_append, List.dropWhile_append_of_pos fun c hc =>
      hw c (List.mem_reverse.mp hc)]
    rfl
  calc Text.trimRight Text.isSpace (a ++ c :: b)
      = Text.trimRight Text.isSpace ((a ++ c :: Text.trimRight Text.isSpace b) ++ white) := by
        rw [List.append_assoc, List.cons_append, ← e]
    _ = a ++ c :: Text.trimRight Text.isSpace b := by rw [hwhite hw, htrim.trimRight]

theorem MarkerLine.trimRight {l : Text} (h : MarkerLine l) :
    MarkerLine (Text.trimRight Text.isSpace l) := by
  obtain ⟨b₁, b₂, b₃, rest, hb, rfl⟩ := h
  refine ⟨b₁, b₂, b₃, Text.trimRight Text.isSpace rest, hb, ?_⟩
  have h := trimRight_append_solid (c := '=') (by decide)
    (b₁ ++ "//".toList ++ b₂ ++ "@version".toList ++ b₃) rest
  simp only [List.append_assoc] at h
  exact h

theorem MarkerLine.reindent {l i : Text} (h : MarkerLine l) (hi : ∀ c ∈ i, Text.isBlank c = true) :
    MarkerLine (i ++ l.dropWhile Text.isBlank) := by
  obtain ⟨b₁, b₂, b₃, rest, hb, rfl⟩ := h
  simp only [List.forall_mem_append] at hb
  refine ⟨i, b₂, b₃, rest, ?_, ?_⟩
  · exact List.forall_mem_append.mpr ⟨List.forall_mem_append.mpr ⟨hi, hb.1.2⟩, hb.2⟩
  · rw [List.dropWhile_append_of_pos hb.1.1]
    rfl

theorem MarkerLine.not_blank {l : Text} (h : MarkerLine l) : Text.isAllSpace l = false := by
  obtain ⟨b₁, b₂, b₃, rest, -, rfl⟩ := h
  exact Text.isAllSpace_of_mem (by simp : '/' ∈ _) (by decide)

/-- Outside block comments a version comment shows nothing in the mask. -/
theorem MarkerLine.masked {l : Text} (h : MarkerLine l) (hl : Text.OneLine l) :
    ∀ c ∈ (scriptLine (.ofLine false) l).masked, Text.isSpace c = true := by
  obtain ⟨b₁, b₂, b₃, rest, hb, rfl⟩ := h
  simp only [List.forall_mem_append] at hb
  exact masked_comment_line (Text.white_of_blanks hb.1.1) fun k =>
    hl (List.mem_append_right _ (List.mem_append_right _ k))

theorem trimRight_eq_nil {t : Text} (h : ∀ c ∈ t, Text.isSpace c = true) :
    Text.trimRight Text.isSpace t = [] := by
  refine (trimmed_trimRight t).eq_nil (List.all_eq_true.mpr fun c hc => ?_)
  exact h c (Text.mem_of_mem_trimRight hc)

theorem strip_eq_nil {t : Text} (h : ∀ c ∈ t, Text.isSpace c = true) : Text.strip t = [] :=
  trimRight_eq_nil fun c hc => h c ((List.dropWhile_sublist _).mem hc)

theorem cutBrace?_markerLine (inComment : Bool) {l : Text} (h : MarkerLine l)
    (hl : Text.OneLine l) :
    cutBrace? (scriptLine (.ofLine inComment) l) = none := by
  rw [cutBrace?, scriptLine_inComment, Mode.inBlock_ofLine]
  cases inComment with
  | true => rfl
  | false =>
    rw [trimRight_eq_nil (h.masked hl)]
    rfl

theorem layLine_markerLine (options : FormatOptions) (s : IndentState) (number : Nat)
    (inComment : Bool) {l : Text} (h : MarkerLine l) (hl : Text.OneLine l) :
    (layLine options s number (scriptLine (.ofLine inComment) l)).1.text =
      Text.trimRight Text.isSpace l := by
  rw [layLine]
  simp only [scriptLine_text, scriptLine_inComment, Mode.inBlock_ofLine, h.not_blank,
    Bool.false_eq_true, if_false]
  cases inComment with
  | true => rfl
  | false =>
    rw [strip_eq_nil (h.masked hl)]
    rfl

/-- One of the lines begins like a version comment. -/
def HasMarker (ls : List Text) : Prop := ∃ l ∈ ls, MarkerLine l

theorem hasMarker_iff (ls : List Text) :
    (ls.any fun l => (markerHead l).isSome) = true ↔ HasMarker ls := by
  rw [List.any_eq_true]
  exact exists_congr fun l => and_congr_right fun _ => markerHead_isSome_iff l

theorem hasMarker_markedLines (fallback : ScriptVersion) (ls : List Text) :
    HasMarker (markedLines fallback ls) := by
  obtain ⟨before, after, old, new, -, hnew, -, e⟩ | ⟨-, e⟩ := markedLines_cases fallback ls
  · obtain ⟨digits, -, rfl⟩ := Option.map_eq_some_iff.mp hnew
    rw [e]
    exact ⟨_, by simp, [], [], [], digits, List.forall_mem_nil _, rfl⟩
  · rw [e]
    split
    case isTrue h => exact (hasMarker_iff ls).mp h
    case isFalse =>
      refine ⟨_, List.mem_cons_self, [], [], [], fallback.marker.drop 11, List.forall_mem_nil _, ?_⟩
      cases fallback <;> decide

theorem HasMarker.braceLines {ls : List Text} (hone : ∀ l ∈ ls, Text.OneLine l) (h : HasMarker ls)
    (inComment : Bool) :
    HasMarker (braceLines (.ofLine inComment) ls) := by
  induction ls generalizing inComment with
  | nil => exact h
  | cons l ls ih =>
    obtain ⟨hl, hls⟩ := List.forall_mem_cons.mp hone
    rw [braceLines_cons]
    obtain ⟨k, hk, hmarker⟩ := h
    rcases List.mem_cons.mp hk with rfl | hk
    · rw [cutBrace?_markerLine inComment hmarker hl]
      exact ⟨k, List.mem_append_left _ List.mem_cons_self, hmarker⟩
    · obtain ⟨k', hk', hmarker'⟩ :=
        ih hls ⟨k, hk, hmarker⟩ (substance (.ofLine inComment) [l]).inComment
      exact ⟨k', List.mem_append_right _ hk', hmarker'⟩

theorem HasMarker.laidLines (options : FormatOptions) {ls : List Text}
    (hone : ∀ l ∈ ls, Text.OneLine l) (h : HasMarker ls) : HasMarker (laidLines options ls) := by
  rw [Layout.laidLines, show Mode.start = .ofLine false from rfl]
  generalize IndentState.start = s
  generalize 1 = number
  generalize false = inComment
  induction ls generalizing s number inComment with
  | nil => exact h
  | cons l ls ih =>
    obtain ⟨hl, hls⟩ := List.forall_mem_cons.mp hone
    rw [readLines_cons, layLines, List.map_cons]
    obtain ⟨k, hk, hmarker⟩ := h
    rcases List.mem_cons.mp hk with rfl | hk
    · refine ⟨_, List.mem_cons_self, ?_⟩
      rw [layLine_markerLine options s number inComment hmarker hl]
      exact hmarker.trimRight
    · rw [entry_of_substance]
      obtain ⟨k', hk', hmarker'⟩ :=
        ih hls ⟨k, hk, hmarker⟩ (layLine options s number (scriptLine (.ofLine inComment) l)).2
        (number + 1) (substance (.ofLine inComment) [l]).inComment
      exact ⟨k', List.mem_cons_of_mem _ hk', hmarker'⟩

theorem mem_collapseFrom (keptBlank : Bool) {ls : List Text} {l : Text} (hl : l ∈ ls)
    (h : Text.isAllSpace l = false) :
    l ∈ collapseFrom keptBlank ls := by
  fun_induction collapseFrom keptBlank ls with
  | case1 => exact hl
  | case2 => exact hl
  | case3 keptBlank k rest hrest hblank ih =>
    rcases List.mem_cons.mp hl with rfl | hl
    · rw [h] at hblank
      cases hblank
    · exact ih hl
  | case4 keptBlank k rest hrest hblank ih =>
    rcases List.mem_cons.mp hl with rfl | hl
    · exact List.mem_cons_self
    · exact List.mem_cons_of_mem _ (ih hl)

theorem HasMarker.alignedLines {ls : List Text} (h : HasMarker ls) :
    HasMarker (alignedLines ls) := by
  have blank : ∀ i, (none : Option Text) = some i → ∀ c ∈ i, Text.isBlank c = true :=
    fun i e => by cases e
  rw [Layout.alignedLines]
  generalize Mode.start = m
  generalize (none : Option Text) = indent at blank
  induction ls generalizing indent m with
  | nil => exact h
  | cons l ls ih =>
    obtain ⟨k, hk, hmarker⟩ := h
    rw [readLines_cons]
    cases hcomment : isCommentLine (scriptLine m l) with
    | false =>
      rw [alignFrom_other _ hcomment, scriptLine_text]
      rcases List.mem_cons.mp hk with rfl | hk
      · exact ⟨k, List.mem_cons_self, hmarker⟩
      · obtain ⟨k', hk', hmarker'⟩ := ih ⟨k, hk, hmarker⟩ (m.after none l).entry none fun i e => by
          cases e
        exact ⟨k', List.mem_cons_of_mem _ hk', hmarker'⟩
    | true =>
      obtain ⟨i, hi⟩ := exists_indent indent hcomment (readLines (m.after none l).entry ls)
      have hblank := blank_of_indent_or blank hi
      rw [alignFrom_comment hcomment hi, scriptLine_text]
      rcases List.mem_cons.mp hk with rfl | hk
      · exact ⟨_, List.mem_cons_self, hmarker.reindent hblank⟩
      · obtain ⟨k', hk', hmarker'⟩ := ih ⟨k, hk, hmarker⟩ (m.after none l).entry (some i)
          fun j e => by cases e; exact hblank
        exact ⟨k', List.mem_cons_of_mem _ hk', hmarker'⟩

/-- What the stages bring about and a second run finds already done. -/
structure Tidy (options : FormatOptions) (ls : List Text) : Prop where
  lines : AreLines ls
  trimmed : ∀ l ∈ ls, Trimmed l
  collapsed : options.collapseBlankLines = true → Collapsed false ls
  aligned : options.alignComments = true → alignedLines ls = ls
  stated : options.updateVersionComment = true → HasMarker ls

theorem tidy_formatLines (fallback : ScriptVersion) (options : FormatOptions) {ls : List Text}
    (h : AreLines ls) :
    Tidy options (formatLines fallback options ls) := by
  have hmarked := @areLines_linesIf (markedLines fallback) (fun _ => areLines_markedLines fallback)
    options.updateVersionComment _ h
  have hbraced := areLines_braced fallback options h
  have hlaid := areLines_of_allStandFor (allStandFor_laidLines options hbraced) hbraced
  have hcollapsed := areLines_collapsed options hbraced
  refine ⟨areLines_formatLines fallback options h, trimmed_formatLines fallback options ls,
    fun ho => ?_, fun ho => ?_, fun ho => ?_⟩
  · have hlines :
      Collapsed false (linesIf options.collapseBlankLines (collapseFrom false) (laidLines options
        (linesIf options.bracesOnNewLine (braceLines .start)
          (linesIf options.updateVersionComment (markedLines fallback) ls)))) := by
      rw [ho]
      exact collapsed_collapseFrom false _
    exact linesIf_of hlines (hlines.congr (allStandFor_alignedLines True hcollapsed).blanks)
      options.alignComments
  · rw [formatLines, ho]
    exact alignedLines_fixed hcollapsed
  · have hstated : HasMarker (linesIf options.updateVersionComment (markedLines fallback) ls) := by
      rw [ho]
      exact hasMarker_markedLines fallback ls
    have hbrace := linesIf_of hstated (hstated.braceLines hmarked.2 false) options.bracesOnNewLine
    have hlay := hbrace.laidLines options hbraced.2
    have hcollapse :
      HasMarker (linesIf options.collapseBlankLines (collapseFrom false) (laidLines options
        (linesIf options.bracesOnNewLine (braceLines .start)
          (linesIf options.updateVersionComment (markedLines fallback) ls)))) := by
      refine linesIf_of hlay ?_ _
      obtain ⟨l, hl, hmarker⟩ := hlay
      exact ⟨l, mem_collapseFrom false hl hmarker.not_blank, hmarker⟩
    exact linesIf_of hcollapse hcollapse.alignedLines _

end PineTools.Layout
