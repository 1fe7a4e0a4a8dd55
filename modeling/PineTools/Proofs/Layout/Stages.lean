import PineTools.Layout.Format
import PineTools.Proofs.Layout.Spaces

/-! The stages of the formatter keep the substance of a script. Each is followed line by line: a
line is replaced by one with the same substance, is cut in two before a brace, or is blank and
dropped. -/
namespace PineTools.Layout

/-- A line that may stand for another: it is one line with the same solid characters, with nothing
new but blanks and, if wanted, with the same substance. -/
structure StandsFor (strict : Prop) (m : Mode) (new old : Text) : Prop where
  oneLine : Text.OneLine new
  chars : ∀ c ∈ new, c ∈ old ∨ Text.isBlank c = true
  solid : Text.solid new = Text.solid old
  substance (h : strict) : substance m [new] = substance m [old]

theorem standsFor_self {strict : Prop} {m : Mode} {l : Text} (h : Text.OneLine l) :
    StandsFor strict m l l :=
  ⟨h, fun _ => .inl, rfl, fun _ => rfl⟩

theorem standsFor_trimRight {strict : Prop} {m : Mode} (hm : m.settled = true) {l : Text}
    (h : Text.OneLine l) :
    StandsFor strict m (Text.trimRight Text.isSpace l) l :=
  ⟨Text.oneLine_trimRight h _, fun _ hc => .inl (Text.mem_of_mem_trimRight hc),
    Text.solid_trimRight l, fun _ => substance_trimRight hm h⟩

theorem blank_ne_newline {c : Char} (h : Text.isBlank c = true) : c ≠ '\n' := by
  rintro rfl
  exact absurd h (by decide)

theorem leadingBlanks_append (l : Text) : l = leadingBlanks l ++ l.dropWhile Text.isBlank :=
  List.takeWhile_append_dropWhile.symm

theorem blank_of_leadingBlanks (l : Text) : ∀ c ∈ leadingBlanks l, Text.isBlank c = true :=
  List.all_eq_true.mp List.all_takeWhile

theorem blank_of_indent (options : FormatOptions) (height : Nat) :
    ∀ c ∈ (List.replicate height (indentUnit options)).flatten, Text.isBlank c = true := by
  intro c hc
  obtain ⟨unit, hunit, hc⟩ := List.mem_flatten.mp hc
  rw [List.eq_of_mem_replicate hunit, indentUnit] at hc
  split at hc
  · rw [List.eq_of_mem_replicate hc]
    decide
  · rw [List.mem_singleton.mp hc]
    decide

theorem standsFor_reindent {strict : Prop} {indent indent' rest : Text}
    (h : ∀ c ∈ indent, Text.isBlank c = true) (h' : ∀ c ∈ indent', Text.isBlank c = true)
    (hrest : Text.OneLine rest) :
    StandsFor strict (.code false) (indent ++ rest) (indent' ++ rest) := by
  have hs : ∀ c ∈ indent, Text.isSpace c = true := Text.white_of_blanks h
  have hs' : ∀ c ∈ indent', Text.isSpace c = true := Text.white_of_blanks h'
  refine ⟨fun k => ?_, fun c hc => ?_, ?_, fun _ => ?_⟩
  · rcases List.mem_append.mp k with k | k
    · exact blank_ne_newline (h _ k) rfl
    · exact hrest k
  · rcases List.mem_append.mp hc with hc | hc
    · exact .inr (h c hc)
    · exact .inl (List.mem_append_right _ hc)
  · rw [Text.solid_append, Text.solid_append, Text.solid_eq_nil hs, Text.solid_eq_nil hs']
  · rw [substance_leading_white hs, substance_leading_white hs']

theorem StandsFor.trans {strict : Prop} {m : Mode} {a b c : Text} (h₁ : StandsFor strict m a b)
    (h₂ : StandsFor strict m b c) : StandsFor strict m a c :=
  ⟨h₁.oneLine, fun x hx => (h₁.chars x hx).elim (h₂.chars x) .inr, h₁.solid.trans h₂.solid, fun h =>
    (h₁.substance h).trans (h₂.substance h)⟩

theorem oneLine_dropWhile {l : Text} (h : Text.OneLine l) (p : Char → Bool) :
    Text.OneLine (l.dropWhile p) :=
  fun k => h ((List.dropWhile_sublist p).mem k)

theorem cells_behind_blanks (l : Text) :
    (cellsFrom (.code false) l).drop (leadingBlanks l).length =
      cellsFrom (.code false) (l.dropWhile Text.isBlank) := by
  rw [leadingBlanks]
  induction l with
  | nil => rfl
  | cons c cs ih =>
    cases hc : Text.isBlank c with
    | false => rw [List.takeWhile_cons_of_neg (by simp [hc]),
        List.dropWhile_cons_of_neg (by simp [hc])]; rfl
    | true =>
      rw [List.takeWhile_cons_of_pos hc, List.dropWhile_cons_of_pos hc,
        cellsFrom_code_white false (Text.isSpace_of_isBlank hc)]
      exact ih

theorem head_dropWhile_blank (l : Text) :
    (l.dropWhile Text.isBlank).head?.any Text.isBlank = false := by
  cases h : l.dropWhile Text.isBlank with
  | nil => rfl
  | cons c cs =>
    have := List.head?_dropWhile_not Text.isBlank l
    rw [h, List.head?_cons] at this
    simpa using this

theorem standsFor_spaceLine (options : FormatOptions) (opened : List Char) {l : Text}
    (hl : Text.OneLine l) (hfirst : l.head?.any Text.isBlank = false) :
    StandsFor (options.spacesAroundOperators = true) (.code false)
    (spaceLine options opened (cellsFrom (.code false) l)) l := by
  obtain ⟨hsolid, hmem⟩ := solid_spaceLine options opened (cellsFrom (.code false) l)
  rw [cellsFrom_chars] at hsolid hmem
  refine ⟨fun k => ?_, fun c hc => (hmem c hc).symm, hsolid, fun ho =>
    substance_spaceLine ho opened hl hfirst⟩
  rcases hmem _ k with h | h
  · exact blank_ne_newline h rfl
  · exact hl h

def scriptLine (m : Mode) (l : Text) : ScriptLine :=
  ⟨if m.inBlock then .blockComment else .code, cellsFrom m l⟩

@[simp] theorem scriptLine_text (m : Mode) (l : Text) :
    (scriptLine m l).text = l := cellsFrom_chars m l

@[simp] theorem scriptLine_inComment (m : Mode) (l : Text) :
    (scriptLine m l).inComment = m.inBlock := by
  rw [ScriptLine.inComment, scriptLine]
  cases m.inBlock <;> rfl

theorem readLines_cons (m : Mode) (l : Text) (ls : List Text) :
    readLines m (l :: ls) = scriptLine m l :: readLines (m.after none l).entry ls := rfl

theorem layCode_text (options : FormatOptions) (s : IndentState) (number : Nat) (line : ScriptLine)
    (code : Text) :
    ∃ indent, (∀ c ∈ indent, Text.isBlank c = true) ∧ (layCode options s number line code).1.text =
      Text.trimRight Text.isSpace
        (indent ++ spaceLine options s.nesting.opened
          (line.cells.drop (leadingBlanks line.text).length)) := by
  rw [layCode]
  refine ⟨_, ?_, rfl⟩
  split
  · exact blank_of_leadingBlanks _
  · exact blank_of_indent options _

theorem standsFor_layLine (options : FormatOptions) (s : IndentState) (number : Nat)
    (inComment : Bool) {l : Text} (hl : Text.OneLine l) :
    StandsFor (options.spacesAroundOperators = true) (.ofLine inComment)
      (layLine options s number (scriptLine (.ofLine inComment) l)).1.text l := by
  have hm := Mode.settled_ofLine inComment
  rw [layLine]
  simp only [scriptLine_text, scriptLine_inComment, Mode.inBlock_ofLine]
  split
  case isTrue hwhite =>
    exact ⟨List.not_mem_nil, List.forall_mem_nil _, (Text.solid_eq_nil_of_isAllSpace hwhite).symm,
      fun _ => (substance_white_line hm hl hwhite).symm⟩
  case isFalse =>
    cases inComment with
    | true => exact standsFor_trimRight hm hl
    | false =>
      simp only [Bool.false_eq_true, if_false]
      split
      · exact standsFor_trimRight hm hl
      · obtain ⟨indent, hindent, e⟩ := layCode_text options s number (scriptLine (.ofLine false) l)
          (Text.strip (scriptLine (.ofLine false) l).masked)
        rw [e, scriptLine_text]
        have hcells : (scriptLine (.ofLine false) l).cells.drop (leadingBlanks l).length =
            cellsFrom (.code false) (l.dropWhile Text.isBlank) := cells_behind_blanks l
        rw [hcells]
        have hrest := oneLine_dropWhile hl Text.isBlank
        have hspaced := standsFor_spaceLine options s.nesting.opened hrest (head_dropWhile_blank l)
        have hline := @standsFor_reindent (options.spacesAroundOperators = true) []
          (leadingBlanks l) _
          (List.forall_mem_nil _) (blank_of_leadingBlanks l) hrest
        rw [← leadingBlanks_append, List.nil_append] at hline
        have hnew := @standsFor_reindent (options.spacesAroundOperators = true) indent [] _ hindent
          (List.forall_mem_nil _) hspaced.oneLine
        exact (standsFor_trimRight hm hnew.oneLine).trans (hnew.trans (hspaced.trans hline))

/-- Lines of which each stands for one of some others, in order. -/
inductive AllStandFor (strict : Prop) : Mode → List Text → List Text → Prop
  | nil (m : Mode) : AllStandFor strict m [] []
  | cons {m : Mode} {new old : Text} {news olds : List Text} : StandsFor strict m new old →
      AllStandFor strict (m.after none old).entry news olds →
      AllStandFor strict m (new :: news) (old :: olds)

section Lists

variable {strict : Prop} {m : Mode} {news olds : List Text}

theorem AllStandFor.oneLine (h : AllStandFor strict m news olds) : ∀ l ∈ news, Text.OneLine l := by
  induction h with
  | nil => exact List.forall_mem_nil _
  | cons h _ ih => exact List.forall_mem_cons.mpr ⟨h.oneLine, ih⟩

theorem AllStandFor.solid (h : AllStandFor strict m news olds) :
    news.map Text.solid = olds.map Text.solid := by
  induction h with
  | nil => rfl
  | cons h _ ih => rw [List.map_cons, List.map_cons, h.solid, ih]

theorem entry_of_substance (m : Mode) (l : Text) :
    (m.after none l).entry = .ofLine (substance m [l]).inComment := by
  rw [substance_singleton, Mode.entry_eq_ofLine]

theorem AllStandFor.substance (h : AllStandFor strict m news olds) (hs : strict) :
    substance m news = substance m olds := by
  induction h with
  | nil => rfl
  | @cons m new old news olds h _ ih =>
    rw [substance_cons m new, substance_cons m old, h.substance hs, ← entry_of_substance, ih]

end Lists

theorem allStandFor_layLines (options : FormatOptions) (s : IndentState) (number : Nat)
    (inComment : Bool) {ls : List Text} (h : ∀ l ∈ ls, Text.OneLine l) :
    AllStandFor (options.spacesAroundOperators = true) (.ofLine inComment)
      ((layLines options s number (readLines (.ofLine inComment) ls)).map fun l => l.text) ls := by
  induction ls generalizing s number inComment with
  | nil => exact .nil _
  | cons l ls ih =>
    obtain ⟨hl, hls⟩ := List.forall_mem_cons.mp h
    exact .cons (standsFor_layLine options s number inComment hl) (ih _ _ _ hls)

/-- A text that may stand for another. -/
structure Keeps (strict : Prop) (new old : Text) : Prop where
  solid : Text.solid new = Text.solid old
  substance (h : strict) : substance .start (Text.lines new) = substance .start (Text.lines old)

theorem keeps_self {strict : Prop} (t : Text) : Keeps strict t t := ⟨rfl, fun _ => rfl⟩

theorem keeps_unlines {strict : Prop} {t : Text} {news : List Text} (hne : news ≠ [])
    (hone : ∀ l ∈ news, Text.OneLine l) (hsolid : (news.map Text.solid).flatten =
      ((Text.lines t).map Text.solid).flatten)
    (hsub : strict → substance .start news = substance .start (Text.lines t)) :
    Keeps strict (Text.unlines news) t := by
  refine ⟨?_, fun h => ?_⟩
  · rw [Text.solid_unlines, hsolid, Text.solid_lines]
  · rw [Text.lines_unlines hne hone, hsub h]

theorem AllStandFor.ne_nil {strict : Prop} {m : Mode} {news olds : List Text}
    (h : AllStandFor strict m news olds) (hne : olds ≠ []) : news ≠ [] := by
  cases h with
  | nil => exact hne
  | cons => exact List.cons_ne_nil _ _

theorem AllStandFor.keeps {strict : Prop} {t : Text} {news : List Text}
    (h : AllStandFor strict .start news (Text.lines t)) : Keeps strict (Text.unlines news) t :=
  keeps_unlines (h.ne_nil (Text.lines_ne_nil t)) h.oneLine
    (congrArg List.flatten h.solid) h.substance

theorem keeps_indentLines (options : FormatOptions) (t : Text) :
    Keeps (options.spacesAroundOperators = true)
    (Text.unlines ((indentLines options t).map fun l => l.text)) t := by
  rw [indentLines, scriptLines_eq]
  exact (allStandFor_layLines options .start 1 false fun _ => Text.oneLine_of_mem_lines).keeps

theorem substance_blank_cons (inComment : Bool) {l : Text} (hl : Text.OneLine l)
    (h : Text.isAllSpace l = true) (ls : List Text) : substance (.ofLine inComment) (l :: ls) =
      substance (.ofLine inComment) ls := by
  rw [substance_cons, substance_white_line (Mode.settled_ofLine inComment) hl h,
    substance_singleton, Mode.after, Mode.inBlock_ofLine, Substance.append_eq]
  cases inComment <;> simp [cellsFrom, solidCells, literalsFrom, Mode.ofLine, Mode.inLiteral]

theorem collapseFrom_keeps (keptBlank inComment : Bool) {ls : List Text}
    (h : ∀ l ∈ ls, Text.OneLine l) :
    substance (.ofLine inComment) (collapseFrom keptBlank ls) = substance (.ofLine inComment) ls ∧
      ((collapseFrom keptBlank ls).map Text.solid).flatten = (ls.map Text.solid).flatten := by
  fun_induction collapseFrom keptBlank ls generalizing inComment with
  | case1 => exact ⟨rfl, rfl⟩
  | case2 => exact ⟨rfl, rfl⟩
  | case3 keptBlank l rest hrest hblank ih =>
    obtain ⟨hl, hls⟩ := List.forall_mem_cons.mp h
    obtain ⟨hwhite, -⟩ := Bool.and_eq_true_iff.mp hblank
    obtain ⟨hsub, hsolid⟩ := ih inComment hls
    rw [substance_blank_cons inComment hl hwhite, List.map_cons, List.flatten_cons,
      Text.solid_eq_nil_of_isAllSpace hwhite]
    exact ⟨hsub, hsolid⟩
  | case4 keptBlank l rest hrest hblank ih =>
    obtain ⟨hl, hls⟩ := List.forall_mem_cons.mp h
    obtain ⟨hsub, -⟩ := ih (substance (.ofLine inComment) [l]).inComment hls
    obtain ⟨-, hsolid⟩ := ih false hls
    rw [substance_cons, hsub, ← substance_cons, List.map_cons, List.flatten_cons, hsolid]
    exact ⟨rfl, rfl⟩

theorem collapseFrom_sublist (keptBlank : Bool) (ls : List Text) :
    (collapseFrom keptBlank ls).Sublist ls := by
  fun_induction collapseFrom keptBlank ls with
  | case1 => exact List.Sublist.refl _
  | case2 => exact List.Sublist.refl _
  | case3 keptBlank l rest hrest hblank ih => exact ih.cons l
  | case4 keptBlank l rest hrest hblank ih => exact ih.cons_cons l

theorem collapseFrom_ne_nil (keptBlank : Bool) {ls : List Text} (h : ls ≠ []) :
    collapseFrom keptBlank ls ≠ [] := by
  fun_induction collapseFrom keptBlank ls with
  | case1 => exact absurd rfl h
  | case2 => exact List.cons_ne_nil _ _
  | case3 keptBlank l rest hrest hblank ih => exact ih hrest
  | case4 => exact List.cons_ne_nil _ _

theorem keeps_collapseBlankLines (strict : Prop) (t : Text) :
    Keeps strict (collapseBlankLines t).text t := by
  have hone : ∀ l ∈ Text.lines t, Text.OneLine l := fun _ => Text.oneLine_of_mem_lines
  refine keeps_unlines (collapseFrom_ne_nil false (Text.lines_ne_nil t)) ?_ ?_ fun _ => ?_
  · exact fun l hl => hone l ((collapseFrom_sublist false _).mem hl)
  · exact (collapseFrom_keeps false false hone).2
  · exact (collapseFrom_keeps false false hone).1

theorem shortestOf_mem (first : Text) (others : List Text) :
    shortestOf first others ∈ first :: others := by
  induction others generalizing first with
  | nil => exact List.mem_cons_self
  | cons t others ih =>
    rw [shortestOf, List.foldl_cons, ← shortestOf]
    split
    · exact List.mem_cons_of_mem _ (ih t)
    · rcases List.mem_cons.mp (ih first) with e | h
      · rw [e]
        exact List.mem_cons_self
      · exact List.mem_cons_of_mem _ (List.mem_cons_of_mem _ h)

theorem blank_of_runIndent {lines : List ScriptLine} {i : Text} (h : runIndent lines = some i) :
    ∀ c ∈ i, Text.isBlank c = true := by
  cases lines with
  | nil => cases h
  | cons line rest =>
    rw [runIndent] at h
    split at h
    · cases h
      rcases List.mem_cons.mp (shortestOf_mem (leadingBlanks line.text)
        ((rest.takeWhile isCommentLine).map fun l => leadingBlanks l.text)) with e | hmem
      · rw [e]
        exact blank_of_leadingBlanks _
      · obtain ⟨l, -, e⟩ := List.mem_map.mp hmem
        rw [← e]
        exact blank_of_leadingBlanks _
    · cases h

theorem isCommentLine_scriptLine (m : Mode) (l : Text) :
    isCommentLine (scriptLine m l) =
      ("//".toList.isPrefixOf (l.dropWhile Text.isSpace) && !m.inBlock) := by
  rw [isCommentLine, scriptLine_text, scriptLine_inComment]

theorem allStandFor_alignFrom (strict : Prop) {indent : Option Text}
    (hindent : ∀ i, indent = some i → ∀ c ∈ i, Text.isBlank c = true) (inComment : Bool)
    {ls : List Text} (h : ∀ l ∈ ls, Text.OneLine l) :
    AllStandFor strict (.ofLine inComment)
    (alignFrom indent (readLines (.ofLine inComment) ls)) ls := by
  induction ls generalizing indent inComment with
  | nil => exact .nil _
  | cons l ls ih =>
    obtain ⟨hl, hls⟩ := List.forall_mem_cons.mp h
    rw [readLines_cons, alignFrom]
    split
    case h_1 i hi hcomment =>
      rw [isCommentLine_scriptLine, Mode.inBlock_ofLine, Bool.and_eq_true,
        Bool.not_eq_true'] at hcomment
      obtain ⟨-, rfl⟩ := hcomment
      have hblank : ∀ c ∈ i, Text.isBlank c = true := by
        rcases Option.or_eq_some_iff.mp hi with e | ⟨-, e⟩
        · exact hindent i e
        · exact blank_of_runIndent e
      have hline := @standsFor_reindent strict i (leadingBlanks l) _ hblank
        (blank_of_leadingBlanks l)
        (oneLine_dropWhile hl Text.isBlank)
      rw [← leadingBlanks_append] at hline
      rw [scriptLine_text]
      refine .cons hline (ih (fun j e => ?_) _ hls)
      cases e
      exact hblank
    case h_2 =>
      rw [scriptLine_text]
      exact .cons (standsFor_self hl) (ih (fun j e => by cases e) _ hls)

theorem keeps_alignComments (strict : Prop) (t : Text) : Keeps strict (alignComments t).text t := by
  rw [alignComments, scriptLines_eq]
  exact (allStandFor_alignFrom strict (fun i e => by cases e) false fun _ =>
    Text.oneLine_of_mem_lines).keeps

theorem masked_eq_brace {m : Mode} {c : Char} {ahead : Option Char}
    (h : (m.step c ahead).1.masked = '\x7b') :
    c = '\x7b' ∧ (m.step c ahead).1.region = .code := by
  have hdelimiter := @step_delimiter m c ahead
  have hchar := m.step_char c ahead
  generalize (m.step c ahead).1 = cell at h hdelimiter hchar ⊢
  subst hchar
  rw [Cell.masked] at h
  split at h
  case isTrue hn =>
    rw [hn] at h
    exact absurd h (by decide)
  case isFalse =>
    split at h
    case h_1 hcode => exact ⟨h, hcode⟩
    case h_2 => exact absurd h (by decide)
    case h_3 => exact absurd h (by decide)
    case h_4 =>
      split at h
      case isTrue hd =>
        obtain ⟨q, e⟩ := hdelimiter hd
        rw [e] at h
        cases q <;> exact absurd h (by decide)
      case isFalse => exact absurd h (by decide)

theorem substance_cut {b : Bool} {pre rest : Text} {x : Char}
    (hafter : (Mode.code false).after (some x) pre = .code b) (hquiet : Mode.Quiet x)
    (hquote : Quote.ofChar? x = none)
    (hregion : ((Mode.code b).step x rest.head?).1.region = .code) :
    substance (.code false) [pre ++ x :: rest] = substance (.code false) [pre, x :: rest] := by
  have hnear : (Mode.code false).after none pre = .code b := by
    rcases Mode.after_quiet_ahead (.code false) hquiet pre with e | ⟨q, e, -⟩
    · rw [← e, hafter]
    · rw [hafter] at e
      cases e
  have hliteral : ((Mode.code b).step x rest.head?).1.region.isLiteral = false := by
    rw [hregion]
    rfl
  have hright : substance (.code false) [pre, x :: rest] = substance (.code false) [pre] ++
      substance (.code b) [x :: rest] := by
    rw [substance_cons _ pre, substance_code_flag b false hquote, ← entry_of_substance, hnear]
    rfl
  rw [hright, substance_singleton, substance_singleton, substance_singleton,
    Substance.append_eq, hnear, cellsFrom_append, List.head?_cons, cellsUpTo_quiet_ahead _ hquiet,
    hafter, Mode.after_append, List.head?_cons, Option.some_or, hafter, solidCells_append,
    cellsFrom, literalsFrom_append_cons _ _ hliteral]
  simp only [literalsFrom, hliteral, Bool.false_eq_true, if_false, Mode.inLiteral, Nat.zero_add]

theorem masked_white (b : Bool) {t : Text} (h : ∀ c ∈ t, Text.isSpace c = true) (rest : Text) :
    ((cellsFrom (.code b) (t ++ rest)).take t.length).map Cell.masked = t := by
  induction t generalizing b with
  | nil => rfl
  | cons c cs ih =>
    obtain ⟨hc, hcs⟩ := List.forall_mem_cons.mp h
    rw [List.cons_append, cellsFrom_code_white b hc, List.length_cons, List.take_succ_cons,
      List.map_cons, ih false hcs, Cell.masked_of_code rfl]

theorem cutBrace?_eq_some {inComment : Bool} {l : Text} {new : List Text}
    (h : cutBrace? (scriptLine (.ofLine inComment) l) = some new) :
    inComment = false ∧ ∃ pre rest b, l = pre ++ '\x7b' :: rest ∧ Text.isAllSpace pre = false ∧
      new = [Text.trimRight Text.isSpace pre, leadingBlanks l ++ '\x7b' :: rest] ∧
      (Mode.code false).after (some '\x7b') pre = .code b ∧
      ((Mode.code b).step '\x7b' rest.head?).1.region = .code := by
  rw [cutBrace?] at h
  simp only [scriptLine_inComment, scriptLine_text, Mode.inBlock_ofLine] at h
  split at h
  case isFalse => cases h
  case isTrue hcond =>
    rw [Bool.and_eq_true, Bool.and_eq_true, Bool.not_eq_true', beq_iff_eq] at hcond
    obtain ⟨⟨rfl, hlast⟩, hcode⟩ := hcond
    refine ⟨rfl, ?_⟩
    obtain ⟨white, hmasked, -⟩ :=
      Text.trimRight_append_white Text.isSpace (scriptLine (.ofLine false) l).masked
    generalize Text.trimRight Text.isSpace (scriptLine (.ofLine false) l).masked =
      code at h hlast hmasked hcode
    obtain ⟨before, rfl⟩ := List.getLast?_eq_some_iff.mp hlast
    have hbefore : (before ++ ['\x7b']).take ((before ++ ['\x7b']).length - 1) = before := by simp
    rw [hbefore] at h hcode
    cases h
    have htaken : ((cellsFrom (.code false) l).take before.length).map Cell.masked = before := by
      change (cellsFrom (.code false) l).map Cell.masked = _ at hmasked
      rw [List.map_take, hmasked, List.append_assoc, List.take_left]
    -- The cell behind the masked text of `before` shows the brace.
    have hshown : ((cellsFrom (.code false) l).drop before.length).map Cell.masked =
        '\x7b' :: white := by
      change (cellsFrom (.code false) l).map Cell.masked = _ at hmasked
      rw [List.map_drop, hmasked, List.append_assoc, List.drop_left]
      rfl
    rw [cellsFrom_drop] at hshown
    cases hrest : l.drop before.length with
    | nil =>
      rw [hrest] at hshown
      cases hshown
    | cons c rest =>
      rw [hrest, List.head?_cons, cellsFrom, List.map_cons, List.cons.injEq] at hshown
      obtain ⟨rfl, hregion⟩ := masked_eq_brace hshown.1
      obtain ⟨b, hb⟩ := mode_of_code (by decide) hregion
      refine ⟨l.take before.length, rest, b, ?_, ?_, rfl, hb, hb ▸ hregion⟩
      · rw [← hrest, List.take_append_drop]
      · refine Bool.eq_false_iff.mpr fun hwhite => ?_
        have hlen : (l.take before.length).length = before.length := by
          rw [List.length_take, Nat.min_eq_left]
          have := congrArg List.length htaken
          rw [List.length_map, List.length_take, cellsFrom_length] at this
          omega
        have hshows := masked_white false (List.all_eq_true.mp hwhite) (l.drop before.length)
        rw [List.take_append_drop, hlen, htaken] at hshows
        rw [hshows, hwhite] at hcode
        cases hcode

theorem cutBrace?_keeps (inComment : Bool) {l : Text} (hl : Text.OneLine l) :
    (∀ l' ∈ (cutBrace? (scriptLine (.ofLine inComment) l)).getD [l], Text.OneLine l') ∧
      (((cutBrace? (scriptLine (.ofLine inComment) l)).getD [l]).map Text.solid).flatten =
        Text.solid l ∧
      substance (.ofLine inComment) ((cutBrace? (scriptLine (.ofLine inComment) l)).getD [l]) =
        substance (.ofLine inComment) [l] := by
  cases hcut : cutBrace? (scriptLine (.ofLine inComment) l) with
  | none => exact ⟨List.forall_mem_singleton.mpr hl, List.append_nil _, rfl⟩
  | some new =>
    obtain ⟨rfl, pre, rest, b, e, -, rfl, hafter, hregion⟩ := cutBrace?_eq_some hcut
    have hpre : Text.OneLine pre := fun k => hl (e ▸ List.mem_append_left _ k)
    have hrest : Text.OneLine ('\x7b' :: rest) := fun k => hl (e ▸ List.mem_append_right _ k)
    have hblank := blank_of_leadingBlanks l
    have hspace : ∀ c ∈ leadingBlanks l, Text.isSpace c = true := Text.white_of_blanks hblank
    have hsecond := @standsFor_reindent True (leadingBlanks l) [] _ hblank
      (List.forall_mem_nil _) hrest
    have hquiet : Mode.Quiet '\x7b' := ⟨by decide, by decide⟩
    rw [Option.getD_some]
    refine ⟨List.forall_mem_cons.mpr
      ⟨Text.oneLine_trimRight hpre _, List.forall_mem_singleton.mpr hsecond.oneLine⟩, ?_, ?_⟩
    · rw [List.map_cons, List.map_cons, List.flatten_cons, List.flatten_cons, Text.solid_trimRight,
        hsecond.solid, e, Text.solid_append]
      simp
    · have hcutline := substance_cut hafter hquiet (by decide) hregion
      rw [← e] at hcutline
      change substance (.code false) _ = substance (.code false) _
      rw [hcutline, substance_cons _ pre, substance_cons, substance_trimRight rfl hpre]
      rw [← entry_of_substance, Mode.entry_eq_ofLine]
      have hmode : (Mode.after (.code false) none pre).inBlock = false := by
        rcases Mode.after_quiet_ahead (.code false) hquiet pre with e | ⟨q, e, -⟩
        · rw [← e, hafter]
          rfl
        · rw [hafter] at e
          cases e
      rw [hmode]
      exact congrArg _ (substance_leading_white hspace _)

/-- The lines of a script with final braces on lines of their own. -/
def braceLines (m : Mode) (ls : List Text) : List Text :=
  (readLines m ls).flatMap fun line => (cutBrace? line).getD [line.text]

theorem braceLines_cons (m : Mode) (l : Text) (ls : List Text) :
    braceLines m (l :: ls) =
      (cutBrace? (scriptLine m l)).getD [l] ++
        braceLines (.ofLine (substance m [l]).inComment) ls := by
  rw [braceLines, readLines_cons, List.flatMap_cons, scriptLine_text, entry_of_substance]
  rfl

theorem braceLines_keeps (inComment : Bool) {ls : List Text} (h : ∀ l ∈ ls, Text.OneLine l) :
    (∀ l ∈ braceLines (.ofLine inComment) ls, Text.OneLine l) ∧
      ((braceLines (.ofLine inComment) ls).map Text.solid).flatten = (ls.map Text.solid).flatten ∧
      substance (.ofLine inComment) (braceLines (.ofLine inComment) ls) =
        substance (.ofLine inComment) ls := by
  induction ls generalizing inComment with
  | nil => exact ⟨List.forall_mem_nil _, rfl, rfl⟩
  | cons l ls ih =>
    obtain ⟨hl, hls⟩ := List.forall_mem_cons.mp h
    obtain ⟨hone, hsolid, hsub⟩ := cutBrace?_keeps inComment hl
    obtain ⟨ihone, ihsolid, ihsub⟩ := ih (substance (.ofLine inComment) [l]).inComment hls
    rw [braceLines_cons]
    refine ⟨List.forall_mem_append.mpr ⟨hone, ihone⟩, ?_, ?_⟩
    · rw [List.map_append, List.flatten_append, hsolid, ihsolid]
      rfl
    · rw [substance_append, hsub, ihsub, ← substance_cons]

theorem braceLines_ne_nil (m : Mode) {ls : List Text} (h : ls ≠ []) : braceLines m ls ≠ [] := by
  obtain ⟨l, ls, rfl⟩ := List.exists_cons_of_ne_nil h
  rw [braceLines_cons]
  refine List.append_ne_nil_of_left_ne_nil ?_ _
  rw [cutBrace?]
  split <;> exact List.cons_ne_nil _ _

theorem keeps_moveBraces (strict : Prop) (t : Text) : Keeps strict (moveBraces t).text t := by
  have hlines : (moveBraces t).text = Text.unlines (braceLines .start (Text.lines t)) := by
    rw [moveBraces, scriptLines_eq]
    rfl
  obtain ⟨hone, hsolid, hsub⟩ := braceLines_keeps false fun _ => @Text.oneLine_of_mem_lines t _
  rw [hlines]
  exact keeps_unlines (braceLines_ne_nil _ (Text.lines_ne_nil t)) hone hsolid fun _ => hsub

end PineTools.Layout
