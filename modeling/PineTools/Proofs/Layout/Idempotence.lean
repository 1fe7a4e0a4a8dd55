import PineTools.Proofs.Layout.InPlace

/-! Formatting twice. A formatted script is a fixed point of the formatter exactly when its first
version comment is canonical, no brace is left to move, and its lines of code are in place when they
are read again. Line breaks, the ends of lines, blank lines and the alignment of comments never give
the second run anything to do. -/
namespace PineTools.Layout

/-- The first marker that has a line to itself is written in its canonical form. -/
def FirstMarkerCanonical (ls : List Text) : Prop :=
  ∀ before old after, ls = before ++ old :: after → (∀ l ∈ before, canonicalMarker? l = none) →
    ∀ new, canonicalMarker? old = some new → new = old

/-- No final brace follows other code of its line. -/
def BracesApart (lines : List ScriptLine) : Prop := ∀ line ∈ lines, cutBrace? line = none

def solidLines (ls : List Text) : Nat := ls.countP fun l => !Text.isAllSpace l

theorem solidLines_of_blanks {ls ls' : List Text}
    (h : ls'.map Text.isAllSpace = ls.map Text.isAllSpace) :
    solidLines ls' = solidLines ls := by
  have hcount (ls : List Text) : solidLines ls = (ls.map Text.isAllSpace).countP fun b => !b := by
    rw [List.countP_map]
    rfl
  rw [hcount, hcount, h]

theorem solidLines_collapseFrom (keptBlank : Bool) (ls : List Text) :
    solidLines (collapseFrom keptBlank ls) = solidLines ls := by
  fun_induction collapseFrom keptBlank ls with
  | case1 => rfl
  | case2 => rfl
  | case3 keptBlank l rest hrest hblank ih =>
    rw [ih, solidLines, solidLines,
      List.countP_cons_of_neg (by simp [(Bool.and_eq_true_iff.mp hblank).1])]
  | case4 keptBlank l rest hrest hblank ih =>
    rw [solidLines, solidLines, List.countP_cons, List.countP_cons, ← solidLines, ← solidLines, ih]

/-- Every brace that is moved makes one more line that is not blank. -/
theorem solidLines_braceLines (inComment : Bool) (ls : List Text) :
    solidLines (braceLines (.ofLine inComment) ls) =
      solidLines ls + (readLines (.ofLine inComment) ls).countP fun line =>
        (cutBrace? line).isSome := by
  induction ls generalizing inComment with
  | nil => rfl
  | cons l ls ih =>
    have happend (a b : List Text) : solidLines (a ++ b) = solidLines a + solidLines b :=
      List.countP_append
    rw [braceLines_cons, happend, ih, readLines_cons, List.countP_cons, entry_of_substance,
      show l :: ls = [l] ++ ls from rfl, happend [l]]
    cases hcut : cutBrace? (scriptLine (.ofLine inComment) l) with
    | none =>
      simp only [Option.getD_none, Option.isSome_none, Bool.false_eq_true, if_false]
      omega
    | some new =>
      obtain ⟨-, pre, rest, b, e, hpre, rfl, -⟩ := cutBrace?_eq_some hcut
      have h₁ : Text.isAllSpace (Text.trimRight Text.isSpace pre) = false := by
        rw [Text.isAllSpace_of_solid (Text.solid_trimRight pre), hpre]
      have h₂ : Text.isAllSpace (leadingBlanks l ++ '\x7b' :: rest) = false :=
        Text.isAllSpace_of_mem (List.mem_append_right _ List.mem_cons_self) (by decide)
      have h₃ : Text.isAllSpace l = false :=
        Text.isAllSpace_of_mem (e ▸ List.mem_append_right _ List.mem_cons_self : '\x7b' ∈ l)
          (by decide)
      simp only [Option.getD_some, solidLines, List.countP_cons, List.countP_nil, h₁, h₂, h₃,
        Bool.not_false, Option.isSome_some, if_true]
      omega

theorem braceLines_eq {m : Mode} {ls : List Text} (h : BracesApart (readLines m ls)) :
    braceLines m ls = ls := by
  induction ls generalizing m with
  | nil => rfl
  | cons l ls ih =>
    rw [readLines_cons, entry_of_substance] at h
    obtain ⟨hl, hls⟩ := List.forall_mem_cons.mp h
    rw [braceLines_cons, hl, ih hls]
    rfl

theorem bracesApart_of_solidLines {ls : List Text}
    (h : solidLines (braceLines .start ls) ≤ solidLines ls) :
    BracesApart (readLines .start ls) := by
  have hcount := solidLines_braceLines false ls
  rw [show Mode.ofLine false = .start from rfl] at hcount
  have hzero : (readLines .start ls).countP (fun line => (cutBrace? line).isSome) = 0 := by omega
  intro line hline
  have := List.countP_eq_zero.mp hzero line hline
  simpa using this

theorem solidLines_laidLines (options : FormatOptions) {ls : List Text} (h : AreLines ls) :
    solidLines (laidLines options ls) = solidLines ls :=
  solidLines_of_blanks (allStandFor_laidLines options h).blanks

theorem AllStandFor.length {strict : Prop} {m : Mode} {news olds : List Text}
    (h : AllStandFor strict m news olds) :
    news.length = olds.length := by
  induction h with
  | nil => rfl
  | cons _ _ ih => rw [List.length_cons, List.length_cons, ih]

/-- A line comment at the start of a line is written where it stood. -/
theorem laidLines_marker (options : FormatOptions) {before after : List Text} {l : Text}
    (hl : MarkerLine l) (hone : ∀ k ∈ before ++ l :: after, Text.OneLine k) :
    ∃ before' after', before'.length = before.length ∧
      laidLines options (before ++ l :: after) = before' ++ Text.trimRight Text.isSpace l ::
        after' := by
  rw [laidLines, show Mode.start = .ofLine false from rfl]
  generalize IndentState.start = s
  generalize 1 = number
  generalize false = inComment
  induction before generalizing s number inComment with
  | nil =>
    rw [List.nil_append, readLines_cons, layLines, List.map_cons,
      layLine_markerLine options s number inComment hl (hone l List.mem_cons_self)]
    exact ⟨[], _, rfl, rfl⟩
  | cons k before ih =>
    rw [List.cons_append, readLines_cons, layLines, List.map_cons, entry_of_substance]
    obtain ⟨before', after', hlen, e⟩ :=
      ih (fun k hk => hone k (List.mem_cons_of_mem _ hk)) _ (number + 1)
      (substance (.ofLine inComment) [k]).inComment
    exact ⟨_ :: before', after', congrArg Nat.succ hlen, by rw [e]; rfl⟩

theorem shortestOf_le (first : Text) (others : List Text) :
    ∀ t ∈ first :: others, (shortestOf first others).length ≤ t.length := by
  induction others generalizing first with
  | nil => exact List.forall_mem_singleton.mpr (Nat.le_refl _)
  | cons u others ih =>
    rw [shortestOf, List.foldl_cons, ← shortestOf]
    split
    case isTrue h =>
      obtain ⟨hu, hothers⟩ := List.forall_mem_cons.mp (ih u)
      exact List.forall_mem_cons.mpr ⟨by omega, List.forall_mem_cons.mpr ⟨hu, hothers⟩⟩
    case isFalse h =>
      obtain ⟨hfirst, hothers⟩ := List.forall_mem_cons.mp (ih first)
      exact List.forall_mem_cons.mpr ⟨hfirst, List.forall_mem_cons.mpr ⟨by omega, hothers⟩⟩

/-- A line without indentation is never moved: no run of comment lines that it belongs to has any.
-/
theorem alignFrom_flush {indent : Option Text} {m : Mode} {before after : List Text} {l : Text}
    (hl : l.head?.any Text.isBlank = false)
    (hindent : ∀ i, indent = some i →
      ∀ line ∈ (readLines m (before ++ l :: after)).takeWhile isCommentLine,
      i.length ≤ (leadingBlanks line.text).length) :
    ∃ before' after', before'.length = before.length ∧
      alignFrom indent (readLines m (before ++ l :: after)) = before' ++ l :: after' := by
  induction before generalizing indent m with
  | nil =>
    rw [List.nil_append, readLines_cons] at hindent ⊢
    cases hcomment : isCommentLine (scriptLine m l) with
    | false => exact ⟨[], _, rfl, by rw [alignFrom_other _ hcomment, scriptLine_text]; rfl⟩
    | true =>
      have hlead : leadingBlanks l = [] ∧ l.dropWhile Text.isBlank = l := by
        cases l with
        | nil => exact ⟨rfl, rfl⟩
        | cons c cs =>
          have hc : ¬ Text.isBlank c = true := by simpa using hl
          exact ⟨List.takeWhile_cons_of_neg hc, List.dropWhile_cons_of_neg hc⟩
      obtain ⟨i, hi⟩ := exists_indent indent hcomment (readLines (m.after none l).entry after)
      have hnil : i = [] := by
        refine List.eq_nil_of_length_eq_zero (Nat.le_zero.mp ?_)
        rcases Option.or_eq_some_iff.mp hi with e | ⟨-, e⟩
        · have := hindent i e (scriptLine m l)
            (by rw [List.takeWhile_cons_of_pos hcomment]; exact List.mem_cons_self)
          rwa [scriptLine_text, hlead.1] at this
        · rw [runIndent, if_pos hcomment, scriptLine_text, hlead.1] at e
          cases e
          exact shortestOf_le [] _ [] List.mem_cons_self
      exact ⟨[], _, rfl, by rw [alignFrom_comment hcomment hi, scriptLine_text, hnil, hlead.2]; rfl⟩
  | cons k before ih =>
    rw [List.cons_append, readLines_cons] at hindent ⊢
    cases hcomment : isCommentLine (scriptLine m k) with
    | false =>
      rw [alignFrom_other _ hcomment]
      obtain ⟨before', after', hlen, e⟩ := @ih none (m.after none k).entry fun i e => by cases e
      exact ⟨_ :: before', after', congrArg Nat.succ hlen, by rw [e]; rfl⟩
    | true =>
      obtain ⟨i, hi⟩ :=
        exists_indent indent hcomment (readLines (m.after none k).entry (before ++ l :: after))
      rw [alignFrom_comment hcomment hi]
      obtain ⟨before', after', hlen, e⟩ :=
        @ih (some i) (m.after none k).entry fun j ej line hline => by
        cases ej
        rcases Option.or_eq_some_iff.mp hi with e | ⟨-, e⟩
        · refine hindent i e line ?_
          rw [List.takeWhile_cons_of_pos hcomment]
          exact List.mem_cons_of_mem _ hline
        · rw [runIndent, if_pos hcomment] at e
          cases e
          exact shortestOf_le _ _ _ (List.mem_cons_of_mem _ (List.mem_map_of_mem hline))
      exact ⟨_ :: before', after', congrArg Nat.succ hlen, by rw [e]; rfl⟩

theorem commentLine_parts {m : Mode} {l : Text} (h : isCommentLine (scriptLine m l) = true) :
    m.inBlock = false ∧ ∃ white x, (∀ c ∈ white, Text.isSpace c = true) ∧
    l = white ++ '/' :: '/' :: x := by
  rw [isCommentLine_scriptLine, Bool.and_eq_true, Bool.not_eq_true',
    List.isPrefixOf_iff_prefix] at h
  obtain ⟨⟨x, hx⟩, hblock⟩ := h
  refine ⟨hblock, l.takeWhile Text.isSpace, x, List.all_eq_true.mp List.all_takeWhile, ?_⟩
  rw [show '/' :: '/' :: x = "//".toList ++ x from rfl, hx, List.takeWhile_append_dropWhile]

theorem masked_commentLine {inComment : Bool} {l : Text}
    (h : isCommentLine (scriptLine (.ofLine inComment) l) = true) (hl : Text.OneLine l) :
    ∀ c ∈ (cellsFrom (.ofLine inComment) l).map Cell.masked, Text.isSpace c = true := by
  obtain ⟨-, white, x, hwhite, rfl⟩ := commentLine_parts h
  obtain rfl := mode_of_isCommentLine h
  exact masked_comment_line hwhite fun k =>
    hl (List.mem_append_right white (List.mem_cons_of_mem _ (List.mem_cons_of_mem _ k)))

theorem layLine_commentLine (options : FormatOptions) (s : IndentState) (number : Nat)
    {m : Mode} {l : Text} (h : isCommentLine (scriptLine m l) = true) (hm : m = .ofLine m.inBlock)
    (hl : Text.OneLine l) :
    (layLine options s number (scriptLine m l)).1.text = Text.trimRight Text.isSpace l := by
  obtain ⟨hblock, white, x, -, hparts⟩ := commentLine_parts h
  rw [hblock] at hm
  subst hm
  have hmasked : ∀ c ∈ (scriptLine (.ofLine false) l).masked, Text.isSpace c = true :=
    masked_commentLine h hl
  have hsolid : Text.isAllSpace l = false :=
    Text.isAllSpace_of_mem (hparts ▸ List.mem_append_right _ List.mem_cons_self :
      '/' ∈ l) (by decide)
  rw [layLine]
  simp only [scriptLine_text, scriptLine_inComment, hblock, hsolid, Bool.false_eq_true, if_false]
  rw [strip_eq_nil hmasked]
  rfl

/-- If alignment makes good what the layout did, the layout did nothing: alignment moves only
comment lines, and those the layout leaves where they are. -/
theorem laidLines_of_aligned (options : FormatOptions) {ls : List Text}
    (h : ∀ l ∈ ls, Text.OneLine l ∧ Trimmed l) (e : alignedLines (laidLines options ls) = ls) :
    laidLines options ls = ls := by
  have blank : ∀ i, (none : Option Text) = some i → ∀ c ∈ i, Text.isBlank c = true :=
    fun i e => by cases e
  rw [alignedLines] at e
  rw [laidLines, show Mode.start = .ofLine false from rfl] at e ⊢
  generalize IndentState.start = s at e ⊢
  generalize 1 = number at e ⊢
  generalize false = inComment at e ⊢
  generalize (none : Option Text) = indent at e blank
  induction ls generalizing s number inComment indent with
  | nil => rfl
  | cons l ls ih =>
    obtain ⟨hl, hls⟩ := List.forall_mem_cons.mp h
    rw [readLines_cons, layLines, List.map_cons] at e ⊢
    rw [readLines_cons] at e
    generalize hlaid :
      (layLine options s number (scriptLine (.ofLine inComment) l)).1.text = l' at e ⊢
    suffices l' = l by
      subst this
      refine congrArg _ ?_
      rw [entry_of_substance] at e ⊢
      cases hcomment : isCommentLine (scriptLine (.ofLine inComment) l') with
      | false =>
        rw [alignFrom_other _ hcomment, List.cons.injEq] at e
        exact ih hls _ _ _ none e.2 fun i e => by cases e
      | true =>
        obtain ⟨i, hi⟩ :=
          exists_indent indent hcomment
            (readLines (.ofLine (substance (.ofLine inComment) [l']).inComment)
          ((layLines options (layLine options s number (scriptLine (.ofLine inComment) l')).2
            (number + 1)
            (readLines (.ofLine (substance (.ofLine inComment) [l']).inComment) ls)).map
              fun l => l.text))
        rw [alignFrom_comment hcomment hi, List.cons.injEq] at e
        exact ih hls _ _ _ (some i) e.2 fun j e => by cases e; exact blank_of_indent_or blank hi
    cases hcomment : isCommentLine (scriptLine (.ofLine inComment) l') with
    | false =>
      rw [alignFrom_other _ hcomment, List.cons.injEq, scriptLine_text] at e
      exact e.1
    | true =>
      obtain ⟨i, hi⟩ :=
        exists_indent indent hcomment (readLines ((Mode.ofLine inComment).after none l').entry
        ((layLines options (layLine options s number (scriptLine (.ofLine inComment) l)).2
          (number + 1)
          (readLines ((Mode.ofLine inComment).after none l).entry ls)).map fun l => l.text))
      rw [alignFrom_comment hcomment hi, List.cons.injEq, scriptLine_text] at e
      rw [← isCommentLine_reindented (blank_of_indent_or blank hi), e.1] at hcomment
      rw [← hlaid, layLine_commentLine options s number hcomment (by rw [Mode.inBlock_ofLine]) hl.1,
        hl.2.trimRight]

theorem isSpace_of_isDecimal {c : Char} (h : Text.isDecimal c = true) : Text.isSpace c = false := by
  have apart : ∀ r ∈ Text.decimalRanges, ∀ s ∈ Text.spaceRanges, r.2 < s.1 ∨ s.2 < r.1 := by decide
  rw [Text.isDecimal, Text.decimalValue?, Option.isSome_map, List.find?_isSome] at h
  obtain ⟨r, hr, hin⟩ := h
  rw [Bool.and_eq_true, decide_eq_true_iff, decide_eq_true_iff] at hin
  refine Bool.eq_false_iff.mpr fun hs => ?_
  obtain ⟨s, hs, hin'⟩ := List.any_eq_true.mp hs
  rw [Bool.and_eq_true, decide_eq_true_iff, decide_eq_true_iff] at hin'
  have := apart r hr s hs
  omega

theorem canonicalMarker?_form {l new : Text} (h : canonicalMarker? l = some new) :
    MarkerLine new ∧ Trimmed new ∧ new.head?.any Text.isBlank = false ∧ Text.isAllSpace new =
      Text.isAllSpace l := by
  obtain ⟨digits, hlone, rfl⟩ := Option.map_eq_some_iff.mp h
  obtain ⟨-, hdigits, b₁, b₂, b₃, b₄, b₅, -, e⟩ := loneMarker?_eq_some hlone
  refine ⟨⟨[], [], [], digits, List.forall_mem_nil _, rfl⟩, fun c hc => ?_, rfl, ?_⟩
  · rw [List.getLast?_append] at hc
    cases hlast : digits.getLast? with
    | none =>
      rw [hlast] at hc
      cases hc
      decide
    | some d =>
      rw [hlast] at hc
      cases hc
      exact isSpace_of_isDecimal (hdigits _ (List.mem_of_getLast? hlast))
  · have hslash : '/' ∈ l := by
      rw [e]
      exact List.mem_append_right _ List.mem_cons_self
    have hfirst : '/' ∈ "//@version=".toList ++ digits := List.mem_append_left _ List.mem_cons_self
    rw [Text.isAllSpace_of_mem hslash (by decide), Text.isAllSpace_of_mem hfirst (by decide)]

theorem replaceFirst_first {f : Text → Option Text} {before after : List Text} {old new : Text}
    (hnone : ∀ l ∈ before, f l = none) (hnew : f old = some new) :
    replaceFirst f (before ++ old :: after) = some (old, new, before ++ new :: after) := by
  induction before with
  | nil => rw [List.nil_append, replaceFirst, hnew]; rfl
  | cons l before ih =>
    obtain ⟨hl, hbefore⟩ := List.forall_mem_cons.mp hnone
    rw [List.cons_append, replaceFirst, hl, ih hbefore]
    rfl

/-- Marking adds a line that is not blank or keeps the number of lines and which of them are blank.
-/
theorem markedLines_blanks (fallback : ScriptVersion) (ls : List Text) :
    markedLines fallback ls = fallback.marker :: ls ∨
      (markedLines fallback ls).map Text.isAllSpace = ls.map Text.isAllSpace := by
  obtain ⟨before, after, old, new, rfl, hnew, -, e⟩ | ⟨-, e⟩ := markedLines_cases fallback ls
  · rw [e, List.map_append, List.map_append, List.map_cons, List.map_cons,
      (canonicalMarker?_form hnew).2.2.2]
    exact .inr rfl
  · rw [e]
    split
    · exact .inr rfl
    · exact .inl rfl

theorem solidLines_marker (fallback : ScriptVersion) (ls : List Text) :
    solidLines (fallback.marker :: ls) = solidLines ls + 1 := by
  have hmarker : Text.isAllSpace fallback.marker = false := by cases fallback <;> decide
  rw [solidLines, List.countP_cons_of_pos (by simp [hmarker])]
  rfl

def finishLines (options : FormatOptions) (marked : List Text) : List Text :=
  linesIf options.alignComments alignedLines
    (linesIf options.collapseBlankLines (collapseFrom false)
    (laidLines options (linesIf options.bracesOnNewLine (braceLines .start) marked)))

theorem formatLines_eq_finishLines (fallback : ScriptVersion) (options : FormatOptions)
    (ls : List Text) :
    formatLines fallback options ls =
      finishLines options (linesIf options.updateVersionComment (markedLines fallback) ls) := rfl

theorem linesIf_align (wanted : Bool) {ls : List Text} (h : AreLines ls) :
    AllStandFor True .start (linesIf wanted alignedLines ls) ls := by
  cases wanted with
  | true => exact allStandFor_alignedLines True h
  | false =>
    have hself (m : Mode) (ls : List Text) (h : ∀ l ∈ ls, Text.OneLine l) :
        AllStandFor True m ls ls := by
      induction ls generalizing m with
      | nil => exact .nil m
      | cons l ls ih =>
        obtain ⟨hl, hls⟩ := List.forall_mem_cons.mp h
        exact .cons (standsFor_self hl) (ih _ hls)
    exact hself .start ls h.2

theorem solidLines_finishLines (options : FormatOptions) {marked : List Text}
    (h : AreLines marked) :
    solidLines (finishLines options marked) =
      solidLines (linesIf options.bracesOnNewLine (braceLines .start) marked) := by
  have hbraced : AreLines (linesIf options.bracesOnNewLine (braceLines .start) marked) :=
    areLines_linesIf (fun _ => areLines_braceLines) _ h
  rw [finishLines,
    solidLines_of_blanks
    (linesIf_align options.alignComments (areLines_collapsed options hbraced)).blanks,
    ← solidLines_laidLines options hbraced]
  cases options.collapseBlankLines with
  | false => rfl
  | true => exact solidLines_collapseFrom false _

theorem solidLines_le_finishLines (options : FormatOptions) {marked : List Text}
    (h : AreLines marked) :
    solidLines marked ≤ solidLines (finishLines options marked) := by
  rw [solidLines_finishLines options h]
  cases options.bracesOnNewLine with
  | false => exact Nat.le_refl _
  | true => exact Nat.le.intro (solidLines_braceLines false marked).symm

/-- Where the stages add no line that is not blank and drop none, they move no brace and collapse
nothing. -/
theorem finishLines_cases {options : FormatOptions} {marked : List Text} (h : AreLines marked)
    (hsolid : solidLines (finishLines options marked) ≤ solidLines marked)
    (hlength : marked.length ≤ (finishLines options marked).length) :
    (options.bracesOnNewLine = true → BracesApart (readLines .start marked)) ∧
      finishLines options marked = linesIf options.alignComments alignedLines
        (laidLines options marked) := by
  have hbraced : AreLines (linesIf options.bracesOnNewLine (braceLines .start) marked) :=
    areLines_linesIf (fun _ => areLines_braceLines) _ h
  have halign := linesIf_align options.alignComments (areLines_collapsed options hbraced)
  rw [solidLines_finishLines options h] at hsolid
  have hapart : options.bracesOnNewLine = true → BracesApart (readLines .start marked) := by
    intro ho
    rw [ho] at hsolid
    exact bracesApart_of_solidLines hsolid
  have hsame : linesIf options.bracesOnNewLine (braceLines .start) marked = marked := by
    cases ho : options.bracesOnNewLine with
    | false => rfl
    | true => exact braceLines_eq (hapart ho)
  refine ⟨hapart, ?_⟩
  rw [finishLines, halign.length, hsame] at hlength
  rw [finishLines, hsame]
  refine congrArg _ ?_
  cases ho : options.collapseBlankLines with
  | false => rfl
  | true =>
    rw [ho] at hlength
    refine (collapseFrom_sublist false _).eq_of_length
      (Nat.le_antisymm (collapseFrom_sublist false _).length_le ?_)
    rwa [(allStandFor_laidLines options h).length]

/-- When the second run changes nothing, the first marker was canonical. -/
theorem firstMarkerCanonical_of_fixed {fallback : ScriptVersion} {options : FormatOptions}
    {ls : List Text} (h : AreLines ls)
    (e : linesIf options.alignComments alignedLines
    (laidLines options (markedLines fallback ls)) = ls) :
    FirstMarkerCanonical ls := by
  intro before old after hls hnone new hnew
  obtain ⟨hmarker, htrim, hflush, -⟩ := canonicalMarker?_form hnew
  have hmarked : markedLines fallback ls = before ++ new :: after := by
    rw [markedLines, hls, replaceFirst_first hnone hnew]
  have hone := (areLines_markedLines fallback h).2
  rw [hmarked] at e hone
  obtain ⟨before', after', hlen, hlaid⟩ := laidLines_marker options hmarker hone
  rw [htrim.trimRight] at hlaid
  obtain ⟨before'', after'', hlen', haligned⟩ :=
    @alignFrom_flush none .start before' after' new hflush fun i e => by cases e
  have hfinal : ∃ x y, x.length = before.length ∧ ls = x ++ new :: y := by
    rw [hlaid] at e
    cases ho : options.alignComments with
    | false =>
      rw [ho] at e
      exact ⟨before', after', hlen, e.symm⟩
    | true =>
      rw [ho] at e
      exact ⟨before'', after'', hlen'.trans hlen, e.symm.trans haligned⟩
  obtain ⟨x, y, hx, hy⟩ := hfinal
  have := List.append_inj (hls.symm.trans hy) hx.symm
  exact (List.cons.inj this.2).1.symm

theorem marked_of_canonical (fallback : ScriptVersion) {options : FormatOptions} {ls : List Text}
    (h : Tidy options ls) (hmarker : options.updateVersionComment = true →
      FirstMarkerCanonical ls) :
    linesIf options.updateVersionComment (markedLines fallback) ls = ls := by
  cases ho : options.updateVersionComment with
  | false => rfl
  | true =>
    obtain ⟨before, after, old, new, e, hnew, hnone, hmarked⟩ | ⟨-, hmarked⟩ :=
      markedLines_cases fallback ls
    · rw [linesIf, if_pos rfl, hmarked, hmarker ho before old after e hnone new hnew, e]
    · rw [linesIf, if_pos rfl, hmarked, if_pos ((hasMarker_iff ls).mpr (h.stated ho))]

/-- If no line with a sign on it is added, no line is added for the version comment. -/
theorem markedLines_not_longer (fallback : ScriptVersion) {update : Bool} {ls : List Text}
    (h : solidLines (linesIf update (markedLines fallback) ls) ≤ solidLines ls) :
    solidLines ls ≤ solidLines (linesIf update (markedLines fallback) ls) ∧
      (linesIf update (markedLines fallback) ls).length ≤ ls.length := by
  cases update with
  | false => exact ⟨Nat.le_refl _, Nat.le_refl _⟩
  | true =>
    rw [linesIf, if_pos rfl] at h ⊢
    rcases markedLines_blanks fallback ls with hadd | hsame
    · rw [hadd, solidLines_marker] at h
      omega
    · have hlength := congrArg List.length hsame
      rw [List.length_map, List.length_map] at hlength
      exact ⟨(solidLines_of_blanks hsame).ge, hlength.le⟩

/-- The second run leaves a tidy script alone exactly when its marker, its braces and its lines of
code allow it. -/
theorem formatLines_eq_iff (fallback : ScriptVersion) (options : FormatOptions) {ls : List Text}
    (h : Tidy options ls) :
    formatLines fallback options ls = ls ↔
      (options.updateVersionComment = true → FirstMarkerCanonical ls) ∧
      (options.bracesOnNewLine = true → BracesApart (readLines .start ls)) ∧
      AllInPlace options .start 1 (readLines .start ls) := by
  have hlines : ∀ l ∈ ls, Text.OneLine l ∧ Trimmed l := fun l hl => ⟨h.lines.2 l hl, h.trimmed l hl⟩
  rw [← laidLines_eq_iff options hlines]
  constructor
  · intro e
    have hmarked :=
      @areLines_linesIf (markedLines fallback) (fun _ => areLines_markedLines fallback)
      options.updateVersionComment _ h.lines
    rw [formatLines_eq_finishLines] at e
    have hle := solidLines_le_finishLines options hmarked
    rw [e] at hle
    obtain ⟨hsolid, hlength⟩ := markedLines_not_longer fallback hle
    obtain ⟨hbraces, hfinish⟩ :=
      finishLines_cases hmarked (by rw [e]; exact hsolid) (by rw [e]; exact hlength)
    rw [e] at hfinish
    have hmarker : options.updateVersionComment = true → FirstMarkerCanonical ls := by
      intro ho
      rw [ho] at hfinish
      exact firstMarkerCanonical_of_fixed h.lines hfinish.symm
    have hsame : linesIf options.updateVersionComment (markedLines fallback) ls = ls :=
      marked_of_canonical fallback h hmarker
    rw [hsame] at hbraces hfinish
    refine ⟨hmarker, hbraces, ?_⟩
    cases ho : options.alignComments with
    | false =>
      rw [ho] at hfinish
      exact hfinish.symm
    | true =>
      rw [ho] at hfinish
      exact laidLines_of_aligned options hlines hfinish.symm
  · rintro ⟨hmarker, hbraces, hlaid⟩
    have hmarked := marked_of_canonical fallback h hmarker
    have hbraced : linesIf options.bracesOnNewLine (braceLines .start) ls = ls := by
      cases ho : options.bracesOnNewLine with
      | false => rfl
      | true => exact braceLines_eq (hbraces ho)
    have hcollapsed : linesIf options.collapseBlankLines (collapseFrom false) ls = ls := by
      cases ho : options.collapseBlankLines with
      | false => rfl
      | true => exact (h.collapsed ho).fixed
    have haligned : linesIf options.alignComments alignedLines ls = ls := by
      cases ho : options.alignComments with
      | false => rfl
      | true => exact h.aligned ho
    rw [formatLines, hmarked, hbraced, hlaid, hcollapsed, haligned]

/-- Formatting twice is formatting once exactly when the formatted script has a canonical version
comment and no brace to move, where these are wanted, and its lines of code are in place when they
are read again. -/
theorem format_idempotent_iff (fallback : ScriptVersion) (options : FormatOptions) (script : Text) :
    (format fallback options (format fallback options script).formatted).formatted =
        (format fallback options script).formatted ↔
      (options.updateVersionComment = true →
        FirstMarkerCanonical (Text.lines (format fallback options script).formatted)) ∧
      (options.bracesOnNewLine = true →
        BracesApart (scriptLines (format fallback options script).formatted)) ∧
      AllInPlace options .start 1 (scriptLines (format fallback options script).formatted) := by
  have hls := areLines_formatLines fallback options (areLines_lines (Text.normalizeBreaks script))
  have htidy := tidy_formatLines fallback options (areLines_lines (Text.normalizeBreaks script))
  have hfirst := format_lines fallback options script
  rw [scriptLines_eq, format_lines fallback options (format fallback options script).formatted,
    normalizeBreaks_format fallback options script]
  generalize formatLines fallback options (Text.lines (Text.normalizeBreaks script)) =
    ls at hls htidy hfirst
  rw [hfirst, hls.lines_unlines, ← formatLines_eq_iff fallback options htidy]
  constructor
  · intro e
    have := congrArg Text.lines e
    rwa [(areLines_formatLines fallback options hls).lines_unlines, hls.lines_unlines] at this
  · intro e
    rw [e]

/-- A version comment to write, a brace to move and lines to lay out: one run does all of it. -/
theorem format_settles :
    let options : FormatOptions := { bracesOnNewLine := true }
    let t := "// @version = 5\nf( x )=>\n  if a  \x7b\n b:=g(1 ,-2)//c\n\x7d".toList
    let s := ("//@version=5\nf(x) =>\n    if a\n    \x7b\n" ++
        "        b := g(1, -2)//c\n    \x7d").toList
    (format .v5 options t).formatted = s ∧ FirstMarkerCanonical (Text.lines s) ∧
      BracesApart (scriptLines s) ∧ AllInPlace options .start 1 (scriptLines s) := by
  intro options t s
  have hfirst : (format .v5 options t).formatted = s := by decide +kernel
  have hagain : (format .v5 options s).formatted = s := by decide +kernel
  have hplaces := format_idempotent_iff .v5 options t
  rw [hfirst] at hplaces
  obtain ⟨hmarker, hbraces, hlines⟩ := hplaces.mp hagain
  exact ⟨hfirst, hmarker rfl, hbraces rfl, hlines⟩

/-- A closing bracket that is set off from the one before it is drawn to it by the first run and
then counts for the indentation in the second. -/
theorem format_not_idempotent :
    (format .v5 .standard
      (format .v5 .standard "//@version=5\nf(\n    g(\n    ) )".toList).formatted).formatted ≠
      (format .v5 .standard "//@version=5\nf(\n    g(\n    ) )".toList).formatted := by
  decide +kernel

end PineTools.Layout
