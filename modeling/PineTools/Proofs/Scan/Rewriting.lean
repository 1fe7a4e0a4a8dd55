import PineTools.Proofs.Pattern.LineWise
import PineTools.Proofs.Scan.Parts
import PineTools.Proofs.Scan.Substance

/-! Scripts that are rewritten line by line. Replacing the matches of a pattern that looks at one
line at a time rewrites every line by itself; as long as each line leaves the same comment open as
before, the lines behind it are read as they were. -/
namespace PineTools

open Mode

def readLine (inComment : Bool) (l : Text) : ScriptLine :=
  ⟨if inComment then .blockComment else .code, cellsFrom (.ofLine inComment) l⟩

namespace ScriptLine

def leaves (line : ScriptLine) (l : Text) : Bool :=
  ((Mode.ofLine line.inComment).after none l).inBlock

@[simp] theorem readLine_inComment (inComment : Bool) (l : Text) :
    (readLine inComment l).inComment = inComment := by
  cases inComment <;> rfl

@[simp] theorem readLine_text (inComment : Bool) (l : Text) :
    (readLine inComment l).text = l := cellsFrom_chars _ l

@[simp] theorem readLine_cells (inComment : Bool) (l : Text) :
    (readLine inComment l).cells = cellsFrom (.ofLine inComment) l := rfl

def IsRead (line : ScriptLine) : Prop := line = readLine line.inComment line.text ∧
    Text.OneLine line.text

theorem IsRead.cells_eq {line : ScriptLine} (h : line.IsRead) :
    line.cells = cellsFrom (.ofLine line.inComment) line.text := congrArg ScriptLine.cells h.1

theorem IsRead.inLine {line : ScriptLine} (h : line.IsRead) : InLine line.cells :=
  fun _ hg hn => h.2 (char_of_newline hn ▸ List.mem_map_of_mem hg)

theorem isRead_readLine (inComment : Bool) {l : Text} (hl : Text.OneLine l) :
    (readLine inComment l).IsRead := by
  rw [IsRead, readLine_inComment, readLine_text]
  exact ⟨rfl, hl⟩

end ScriptLine

open ScriptLine

theorem readLines_cons (inComment : Bool) (l : Text) (ls : List Text) :
    readLines (.ofLine inComment) (l :: ls) =
      readLine inComment l :: readLines (.ofLine ((readLine inComment l).leaves l)) ls := by
  rw [readLines, inBlock_ofLine, entry_eq_ofLine, leaves, readLine_inComment]
  rfl

/-- A block comment goes on behind lines that are read where one does, or where none does. -/
def leavesAll (inComment : Bool) (ls : List Text) : Bool :=
  ls.foldl (fun b l => (readLine b l).leaves l) inComment

theorem leavesAll_cons (inComment : Bool) (l : Text) (ls : List Text) :
    leavesAll inComment (l :: ls) = leavesAll ((readLine inComment l).leaves l) ls := rfl

theorem leavesAll_append (inComment : Bool) (a b : List Text) :
    leavesAll inComment (a ++ b) = leavesAll (leavesAll inComment a) b := List.foldl_append

theorem readLines_append (inComment : Bool) (a b : List Text) :
    readLines (.ofLine inComment) (a ++ b) =
      readLines (.ofLine inComment) a ++ readLines (.ofLine (leavesAll inComment a)) b := by
  induction a generalizing inComment with
  | nil => rfl
  | cons l a ih => rw [List.cons_append, readLines_cons, readLines_cons, ih]; rfl

theorem scriptLines_readLines (t : Text) :
    scriptLines t = readLines (.ofLine false) (Text.lines t) := scriptLines_eq t

theorem isRead_of_mem_readLines {inComment : Bool} {ls : List Text} (hls : ∀ l ∈ ls, Text.OneLine l)
    {line : ScriptLine} (h : line ∈ readLines (.ofLine inComment) ls) : line.IsRead ∧
    line.text ∈ ls := by
  induction ls generalizing inComment with
  | nil => cases h
  | cons l ls ih =>
    obtain ⟨hl, hls⟩ := List.forall_mem_cons.mp hls
    rw [readLines_cons] at h
    rcases List.mem_cons.mp h with rfl | h
    · rw [readLine_text]
      exact ⟨isRead_readLine inComment hl, List.mem_cons_self⟩
    · obtain ⟨hread, hmem⟩ := ih hls h
      exact ⟨hread, List.mem_cons_of_mem l hmem⟩

theorem isRead_of_mem_scriptLines {t : Text} {line : ScriptLine} (h : line ∈ scriptLines t) :
    line.IsRead := by
  rw [scriptLines_readLines] at h
  exact (isRead_of_mem_readLines (fun l hl => Text.oneLine_of_mem_lines hl) h).1

theorem cutLines_cells (entry : Region) (cs : List Cell) :
    (linesFrom entry cs).map ScriptLine.cells = cutLines cs := by
  induction cs generalizing entry with
  | nil => rfl
  | cons c cs ih =>
    have hnewline : (Glyph.seen c = '\n') = (c.char = '\n') :=
      propext ⟨char_of_newline, fun h => by change c.masked = '\n'; rw [Cell.masked, if_pos h, h]⟩
    rw [linesFrom, cutLines]
    simp only [hnewline]
    split
    · rw [List.map_cons, ih]
    · rw [← ih entry]
      cases linesFrom entry cs <;> rfl

def rewriteLines (g : ScriptLine → Text) (inComment : Bool) (ls : List Text) : List Text :=
  (readLines (.ofLine inComment) ls).map g

section RewriteLines

variable {g : ScriptLine → Text}

theorem rewriteLines_cons (g : ScriptLine → Text) (inComment : Bool) (l : Text) (ls : List Text) :
    rewriteLines g inComment (l :: ls) =
      g (readLine inComment l) :: rewriteLines g ((readLine inComment l).leaves l) ls := by
  rw [rewriteLines, readLines_cons]
  rfl

theorem rewriteLines_append (g : ScriptLine → Text) (inComment : Bool) (a b : List Text) :
    rewriteLines g inComment (a ++ b) = rewriteLines g inComment a ++
      rewriteLines g (leavesAll inComment a) b := by
  rw [rewriteLines, readLines_append, List.map_append]
  rfl

def reread (g : ScriptLine → Text) (line : ScriptLine) : ScriptLine :=
  readLine line.inComment (g line)

theorem reread_of_text {line : ScriptLine} (hline : line.IsRead) (h : g line = line.text) :
    reread g line = line := by
  rw [reread, h]
  exact hline.1.symm

/-- The rewriting of a line gives a line, and leaves the same comment open. -/
def KeepsReading (g : ScriptLine → Text) : Prop :=
  ∀ line : ScriptLine, line.IsRead → Text.OneLine (g line) ∧ line.leaves (g line) =
    line.leaves line.text

namespace KeepsReading

variable (h : KeepsReading g) {inComment : Bool} {ls : List Text}
include h

theorem isRead {line : ScriptLine} (hline : line.IsRead) : (reread g line).IsRead :=
  isRead_readLine _ (h line hline).1

theorem leaves_reread {l : Text} (hl : Text.OneLine l) :
    (readLine inComment (g (readLine inComment l))).leaves (g (readLine inComment l)) =
      (readLine inComment l).leaves l := by
  have hleaves := (h _ (isRead_readLine inComment hl)).2
  rw [readLine_text] at hleaves
  rw [← hleaves, leaves, leaves, readLine_inComment, readLine_inComment]

/-- Rewritten lines leave open what they left open. -/
theorem leavesAll_rewriteLines (hls : ∀ l ∈ ls, Text.OneLine l) :
    leavesAll inComment (rewriteLines g inComment ls) = leavesAll inComment ls := by
  induction ls generalizing inComment with
  | nil => rfl
  | cons l ls ih =>
    obtain ⟨hl, hls⟩ := List.forall_mem_cons.mp hls
    rw [rewriteLines_cons, leavesAll, leavesAll, List.foldl_cons, List.foldl_cons,
      h.leaves_reread hl]
    exact ih hls

theorem rewriteLines_rewriteLines (g' : ScriptLine → Text) (hls : ∀ l ∈ ls, Text.OneLine l) :
    rewriteLines g' inComment (rewriteLines g inComment ls) =
      rewriteLines (fun line => g' (reread g line)) inComment ls := by
  induction ls generalizing inComment with
  | nil => rfl
  | cons l ls ih =>
    obtain ⟨hl, hls⟩ := List.forall_mem_cons.mp hls
    rw [rewriteLines_cons, rewriteLines_cons, rewriteLines_cons, h.leaves_reread hl, ih hls, reread,
      readLine_inComment]

theorem comp {g' : ScriptLine → Text} (h' : KeepsReading g') :
    KeepsReading fun line => g' (reread g line) := by
  intro line hline
  obtain ⟨hone, hleaves⟩ := h' _ (h.isRead hline)
  refine ⟨hone, ?_⟩
  rw [← (h line hline).2]
  rw [leaves, leaves, reread, readLine_inComment, readLine_text] at hleaves
  exact hleaves

end KeepsReading

theorem readLines_texts (inComment : Bool) (ls : List Text) :
    (readLines (.ofLine inComment) ls).map ScriptLine.text = ls := by
  induction ls generalizing inComment with
  | nil => rfl
  | cons l ls ih => rw [readLines_cons, List.map_cons, readLine_text, ih]

theorem rewriteLines_eq_self {inComment : Bool} {ls : List Text}
    (h : ∀ line ∈ readLines (.ofLine inComment) ls, g line = line.text) :
    rewriteLines g inComment ls = ls := by
  rw [rewriteLines, List.map_congr_left h, readLines_texts]

end RewriteLines

section Substitution

variable {β : Type} {p : Pattern Cell β} (replacement : List Cell → β → Text)

/-- What is written for cells when the matches of a pattern are replaced. -/
def rewriteCells (p : Pattern Cell β) (replacement : List Cell → β → Text) (cs : List Cell) :
    Text :=
  (rebuild Cell.char replacement none (p.segments cs)).1

theorem rebuild_append (written : Cell → Char) (a b : List (Segment Cell β)) :
    (rebuild written replacement none (a ++ b)).1 =
      (rebuild written replacement none a).1 ++ (rebuild written replacement none b).1 := by
  induction a with
  | nil => rfl
  | cons s a ih =>
    cases s with
    | plain c => exact congrArg (written c :: ·) ih
    | found gs v =>
      have hrest : (rebuild written replacement none (.found gs v :: (a ++ b))).1 =
          replacement gs v ++ (rebuild written replacement none (a ++ b)).1 := rfl
      rw [List.cons_append, hrest, ih, ← List.append_assoc]
      rfl

theorem rebuild_newline (hp : p.LineWise) (written : Cell → Char) (l : List Cell) {n : Cell}
    (hn : Glyph.seen n = '\n') (cs : List Cell) :
    (rebuild written replacement none (p.segments (l ++ n :: cs))).1 =
      (rebuild written replacement none (p.segments l)).1 ++
        written n :: (rebuild written replacement none (p.segments cs)).1 := by
  rw [hp.segments_newline l hn, rebuild_append]
  rfl

theorem rewriteCells_newline (hp : p.LineWise) (l : List Cell) {n : Cell} (hn : Glyph.seen n = '\n')
    (cs : List Cell) :
    rewriteCells p replacement (l ++ n :: cs) = rewriteCells p replacement l ++
      '\n' :: rewriteCells p replacement cs := by
  have hchar : n.char = '\n' := char_of_newline hn
  rw [rewriteCells, rebuild_newline replacement hp Cell.char l hn cs, hchar]
  rfl

/-- The matches of a pattern that looks at one line at a time are replaced line by line. -/
theorem lines_rewriteCells (hp : p.LineWise) {cs : List Cell}
    (h : ∀ l ∈ cutLines cs, Text.OneLine (rewriteCells p replacement l)) :
    Text.lines (rewriteCells p replacement cs) =
      (cutLines cs).map (rewriteCells p replacement) := by
  induction cs using cutLines_induction with
  | last l hl =>
    rw [cutLines_of_inLine hl, List.forall_mem_singleton] at h
    rw [cutLines_of_inLine hl, Text.lines_of_oneLine h, List.map_singleton]
  | more l n cs hl hn ih =>
    rw [cutLines_newline hl hn, List.forall_mem_cons] at h
    rw [cutLines_newline hl hn, rewriteCells_newline replacement hp l hn,
      Text.lines_append_newline h.1, ih h.2, List.map_cons]

theorem lines_substitute (hp : p.LineWise) {t : Text}
    (h : ∀ line ∈ scriptLines t, Text.OneLine (rewriteCells p replacement line.cells)) :
    Text.lines (substitute p replacement t).1 =
      rewriteLines (fun line => rewriteCells p replacement line.cells) false (Text.lines t) := by
  have hcut : cutLines (cells t) = (scriptLines t).map ScriptLine.cells :=
    (cutLines_cells .code (cells t)).symm
  have hlines :=
    @lines_rewriteCells _ _ replacement hp (cells t) (by rw [hcut]; exact List.forall_mem_map.mpr h)
  rw [substitute, ← rewriteCells, hlines, hcut, List.map_map, scriptLines_readLines]
  rfl

section Front

variable {l rest : List Cell} {v : β}

theorem rebuild_plain (written : Cell → Char) (l : List Cell) :
    (rebuild written replacement none (l.map .plain)).1 = l.map written := by
  induction l with
  | nil => rfl
  | cons g l ih => exact congrArg (written g :: ·) ih

section LineStart

variable (hp : p.LineWise) (hstart : p = Pattern.atLineStart (p none)) (written : Cell → Char)
    (hl : InLine l)
include hp hstart hl

/-- A line at whose front a pattern of line starts does not apply is kept. -/
theorem rebuild_of_none (h : p none l = none) :
    (rebuild written replacement none (p.segments l)).1 = l.map written := by
  rw [hstart] at hp
  rw [hstart]
  rcases Pattern.segments_atLineStart hp.advances hl with ⟨-, e⟩ | ⟨taken, v, rest, -, -, hsome, -⟩
  · rw [e, rebuild_plain]
  · rw [h] at hsome
    cases hsome

/-- Where it applies, what it takes is replaced and the rest of the line is kept. -/
theorem rebuild_of_some (h : p none l = some (v, rest)) :
    ∃ taken, l = taken ++ rest ∧
      (rebuild written replacement none (p.segments l)).1 = replacement taken v ++
        rest.map written := by
  rw [hstart] at hp
  rw [hstart]
  rcases Pattern.segments_atLineStart hp.advances hl with ⟨hnone, -⟩ | ⟨taken, v', rest', -,
    hsplit, hsome, e⟩
  · rw [h] at hnone
    cases hnone
  · rw [h] at hsome
    cases hsome
    refine ⟨taken, hsplit, ?_⟩
    rw [e]
    exact congrArg (replacement taken v ++ ·) (rebuild_plain replacement written rest)

end LineStart

theorem rewriteCells_of_none (hp : p.LineWise) (hstart : p = Pattern.atLineStart (p none))
    (hl : InLine l) (h : p none l = none) : rewriteCells p replacement l = writtenText l :=
  rebuild_of_none replacement hp hstart Cell.char hl h

theorem rewriteCells_of_some (hp : p.LineWise) (hstart : p = Pattern.atLineStart (p none))
    (hl : InLine l) (h : p none l = some (v, rest)) :
    ∃ taken, l = taken ++ rest ∧ rewriteCells p replacement l = replacement taken v ++
      writtenText rest :=
  rebuild_of_some replacement hp hstart Cell.char hl h

end Front

end Substitution

end PineTools
