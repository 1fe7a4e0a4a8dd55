import PineTools.Proofs.Scan.Reports
import PineTools.Proofs.Scan.Revision

/-! Scans of a text that is put together at a newline. One bit is carried over it: behind a newline
in code the rest is read as a script of its own, and behind a newline in a block comment as the rest
of that comment. -/
namespace PineTools

open Mode

/-- The offsets of the delimiters among cells that start at the given offset. -/
def delimitersFrom (offset : Nat) : List Cell → List Nat
  | [] => []
  | c :: cs => if c.delimiter then offset :: delimitersFrom (offset + 1) cs
    else delimitersFrom (offset + 1) cs

/-- The offsets of the quotes that open and close the literals of a script. -/
def delimiters (t : Text) : List Nat := delimitersFrom 0 (cells t)

theorem delimitersFrom_append (offset : Nat) (a b : List Cell) :
    delimitersFrom offset (a ++ b) = delimitersFrom offset a ++
      delimitersFrom (offset + a.length) b := by
  induction a generalizing offset with
  | nil => rfl
  | cons c cs ih =>
    rw [List.cons_append, delimitersFrom, delimitersFrom, ih, List.length_cons,
      Nat.add_right_comm offset 1, Nat.add_assoc]
    split <;> rfl

theorem delimitersFrom_shift (offset shift : Nat) (cs : List Cell) :
    delimitersFrom (offset + shift) cs = (delimitersFrom offset cs).map (· + shift) := by
  induction cs generalizing offset with
  | nil => rfl
  | cons c cs ih =>
    rw [delimitersFrom, delimitersFrom, Nat.add_right_comm, ih]
    split <;> rfl

def regionAt (t : Text) (i : Nat) : Option Region := (cells t)[i]?.map Cell.region

/-- A text whose rest is read as a script of its own: what is reported about it is what is reported
about the part in front and, further down, about the rest. -/
structure ReadsApart (p s : Text) : Prop where
  cells_eq : cells (p ++ s) = cells p ++ cells s
  delimiters_eq : delimiters (p ++ s) = delimiters p ++ (delimiters s).map (· + p.length)
  unclosed_eq : unclosedLiterals (p ++ s) = unclosedLiterals p ++ (unclosedLiterals s).map
    (.shift (p.count '\n'))
  openComment_eq : openComment? (p ++ s) = (openComment? s).map (· + p.count '\n')

section Newline

variable (q s : Text)

theorem cells_newline : cells (q ++ '\n' :: s) =
    cells (q ++ ['\n']) ++ cellsFrom (Mode.start.after none q).entry s := by
  rw [cells, cells, cellsFrom_newline rfl, cellsFrom_newline rfl, List.append_assoc]
  rfl

theorem regionAt_newline : regionAt (q ++ '\n' :: s) q.length =
    some (if (Mode.start.after none q).inBlock then .blockComment else .code) := by
  rw [regionAt, cells, cellsFrom_newline rfl,
    List.getElem?_append_right (Nat.le_of_eq (cellsFrom_length _ q)), cellsFrom_length,
    Nat.sub_self]
  rfl

theorem after_newline_any (ahead : Option Char) :
    Mode.start.after ahead (q ++ ['\n']) = (Mode.start.after none q).entry := by
  rw [after_append, List.head?_cons, Option.some_or, after_newline_ahead, Mode.after,
    step_newline (settled_after rfl q)]
  rfl

theorem modeAt_newline :
    modeAt (q ++ '\n' :: s) (q.length + 1) = (Mode.start.after none q).entry := by
  have hsplit : q ++ '\n' :: s = (q ++ ['\n']) ++ s := by
    rw [List.append_assoc, List.singleton_append]
  have hlen : q.length + 1 = (q ++ ['\n']).length := by
    rw [List.length_append, List.length_singleton]
  rw [modeAt, hsplit, hlen, List.take_left' rfl, List.drop_left' rfl, after_newline_any]

/-- What newlines cut off is known before the rest is. -/
theorem unclosed_newline : unclosedLiterals (q ++ ['\n'] ++ s) = unclosedLiterals (q ++ ['\n']) ++
    unclosedFrom (Mode.start.after none q).entry (1 + (q ++ ['\n']).count '\n') s := by
  have hclosed : unclosedLiterals (q ++ ['\n']) = unclosedUpTo .start 1 (q ++ ['\n']) := by
    rw [unclosedLiterals, unclosedFrom_eq, after_newline_any, openAt_entry, List.append_nil]
  rw [unclosedLiterals, unclosedFrom_append, after_newline_any, hclosed]

theorem readsApart_newline (h : (Mode.start.after none q).inBlock = false) :
    ReadsApart (q ++ ['\n']) s := by
  have hentry : (Mode.start.after none q).entry = .start := by
    rw [entry, h]
    rfl
  have hcells : cells (q ++ ['\n'] ++ s) = cells (q ++ ['\n']) ++ cells s := by
    rw [List.append_assoc, List.singleton_append, cells_newline, hentry]
    rfl
  refine ⟨hcells, ?_, ?_, ?_⟩
  · rw [delimiters, hcells, delimitersFrom_append, delimiters, delimiters, ← delimitersFrom_shift]
    rw [cells, cellsFrom_length]
  · rw [unclosed_newline, hentry, unclosedFrom_shift]
    rfl
  · rw [openComment?, openCommentFrom_append, after_newline_any, hentry, openComment?,
      ← openCommentFrom_shift]
    exact openCommentFrom_opened rfl _ _ _ s

theorem cells_in_comment (h : (Mode.start.after none q).inBlock = true) :
    cells (q ++ ['\n'] ++ s) = cells (q ++ ['\n']) ++ (cells ('/' :: '*' :: s)).drop 2 := by
  have hentry : (Mode.start.after none q).entry = .block := by
    rw [entry, h]
    rfl
  rw [List.append_assoc, List.singleton_append, cells_newline, hentry]
  rfl

end Newline

section Lines

variable (entry : Region) (cs : List Cell)

theorem linesFrom_ne_nil : linesFrom entry cs ≠ [] := by
  cases cs with
  | nil => exact List.cons_ne_nil _ _
  | cons c cs =>
    rw [linesFrom]
    split
    · exact List.cons_ne_nil _ _
    · split <;> exact List.cons_ne_nil _ _

theorem linesFrom_entry : (linesFrom entry cs)[0]?.map ScriptLine.entry = some entry := by
  cases cs with
  | nil => rfl
  | cons c cs =>
    rw [linesFrom]
    split
    · rfl
    · split <;> rfl

theorem linesFrom_length : (linesFrom entry cs).length = (cs.map Cell.char).count '\n' + 1 := by
  induction cs generalizing entry with
  | nil => rfl
  | cons c cs ih =>
    rw [linesFrom, List.map_cons]
    split
    case isTrue hc => rw [List.length_cons, ih, hc, List.count_cons_self]
    case isFalse hc =>
      rw [List.count_cons_of_ne hc, ← ih entry]
      split
      case h_1 hnil => exact absurd hnil (linesFrom_ne_nil entry cs)
      case h_2 l ls hls => rw [hls, List.length_cons, List.length_cons]

theorem linesFrom_append {n : Cell} (hn : n.char = '\n') (rest : List Cell) :
    linesFrom entry (cs ++ n :: rest) = linesFrom entry cs ++ linesFrom n.region rest := by
  induction cs generalizing entry with
  | nil =>
    have hfirst : linesFrom entry (n :: rest) = ⟨entry, []⟩ :: linesFrom n.region rest := by
      rw [linesFrom, if_pos hn]
    exact hfirst
  | cons c cs ih =>
    rw [List.cons_append, linesFrom, linesFrom]
    split
    · rw [ih, List.cons_append]
    · rw [ih]
      cases hls : linesFrom entry cs with
      | nil => exact absurd hls (linesFrom_ne_nil entry cs)
      | cons l ls => rfl

end Lines

theorem scriptLines_entry (q s : Text) :
    (scriptLines (q ++ '\n' :: s))[q.count '\n' + 1]?.map ScriptLine.entry =
      regionAt (q ++ '\n' :: s) q.length := by
  have hlen : (linesFrom .code (cellsFrom .start q)).length = q.count '\n' + 1 := by
    rw [linesFrom_length, cellsFrom_chars]
  rw [regionAt_newline, scriptLines, cells, cellsFrom_newline rfl, linesFrom_append _ _ rfl,
    List.getElem?_append_right (Nat.le_of_eq hlen), hlen, Nat.sub_self, linesFrom_entry]
  rfl

theorem region_of_newline {m : Mode} (hm : m.settled = true) (t : Text) :
    ∀ c ∈ cellsFrom m t, c.char = '\n' → c.region = .code ∨ c.region = .blockComment := by
  induction t using Text.lines_induction generalizing m with
  | last l hl => exact fun c hc e => absurd e (cellsFrom_oneLine hl m c hc)
  | more l t hl ih =>
    intro c hc e
    rw [cellsFrom_newline hm] at hc
    rcases List.mem_append.mp hc with hc | hc
    · exact absurd e (cellsFrom_oneLine hl m c hc)
    · rcases List.mem_cons.mp hc with rfl | hc
      · rw [newlineCell]
        split
        · exact .inr rfl
        · exact .inl rfl
      · exact ih (settled_entry _) c hc e

/-- A text is scanned newline by newline. If the newline between two parts lies in code the parts
are read apart; else it lies in a block comment, which goes on. Newlines lie nowhere else, every
character has one cell, and the region with which a line is entered tells the mode in which its
first character is read. -/
theorem scan_composes_at_newlines :
    (∀ q s : Text,
      (regionAt (q ++ ['\n'] ++ s) q.length = some .code ∧ ReadsApart (q ++ ['\n']) s) ∨
      (regionAt (q ++ ['\n'] ++ s) q.length = some .blockComment ∧
        cells (q ++ ['\n'] ++ s) = cells (q ++ ['\n']) ++ (cells ('/' :: '*' :: s)).drop 2)) ∧
    (∀ t, (cells t).map Cell.char = t ∧ ∀ c ∈ cells t, c.char = '\n' → c.region = .code ∨ c.region =
      .blockComment) ∧
    (∀ t, (scriptLines t)[0]?.map ScriptLine.entry = some .code ∧ modeAt t 0 = .ofLine false) ∧
    ∀ q s : Text, ∃ line, (scriptLines (q ++ '\n' :: s))[q.count '\n' + 1]? = some line ∧
      some line.entry = regionAt (q ++ '\n' :: s) q.length ∧
      modeAt (q ++ '\n' :: s) (q.length + 1) = .ofLine line.inComment := by
  refine ⟨fun q s => ?_, fun t => ⟨cellsFrom_chars .start t, region_of_newline rfl t⟩,
    fun t => ⟨linesFrom_entry .code _, rfl⟩, fun q s => ?_⟩
  · have hregion := regionAt_newline q s
    rw [← List.singleton_append, ← List.append_assoc] at hregion
    cases h : (Mode.start.after none q).inBlock with
    | false =>
      rw [h] at hregion
      exact .inl ⟨hregion, readsApart_newline q s h⟩
    | true =>
      rw [h] at hregion
      exact .inr ⟨hregion, cells_in_comment q s h⟩
  · have hregion := (scriptLines_entry q s).trans (regionAt_newline q s)
    obtain ⟨line, hline, hentry⟩ := Option.map_eq_some_iff.mp hregion
    refine ⟨line, hline, ?_, ?_⟩
    · rw [regionAt_newline, hentry]
    · rw [modeAt_newline, entry_eq_ofLine, ScriptLine.inComment, hentry]
      cases (Mode.start.after none q).inBlock <;> rfl

end PineTools
