import PineTools.Proofs.Construct.LooseDefinitions
import PineTools.Proofs.Convert.MarkedDefinitions
import PineTools.Proofs.Convert.Validity
import PineTools.Proofs.Layout.Shown
import PineTools.Proofs.Layout.Versions

namespace PineTools.Layout

open Reader

section Inherited

/-- What a line of the mask still is when its signs are respaced, when it is cut before a brace, and
of course when it shows nothing. -/
structure Inherited (Q : Text → Prop) : Prop where
  white {code : Text} : (∀ c ∈ code, Text.isSpace c = true) → Q code
  respaced {new old : Text} : Respaced True (some ' ') new old → Q old → Q new
  before {a b : Text} : Q (a ++ '\x7b' :: b) → Q a
  behind {i a b : Text} : (∀ c ∈ i, Text.isBlank c = true) → Q (a ++ '\x7b' :: b) →
    Q (i ++ '\x7b' :: b)

theorem ends_append {a : Text} (h : Ends a) (b : Text) : Ends (a ++ '\x7b' :: b) := by
  cases a with
  | nil => exact fun c hc => Option.some.inj hc ▸ (by decide)
  | cons c a => exact h

theorem inherited_export : Inherited fun code => exportHead.readAt? code = none where
  white h := Classical.byContradiction fun hread => by
    obtain ⟨indent, gap, w, rest, rfl, -⟩ := exportHead_iff.mp hread
    exact absurd (h 'x' (by simp)) (by decide)
  respaced h hold := Classical.byContradiction fun hread => h.exportHead hread hold
  before {a b} h := Classical.byContradiction fun hread => by
    obtain ⟨indent, gap, w, rest, rfl, hblank, hne, hw, hrest⟩ := exportHead_iff.mp hread
    refine exportHead_iff.mpr ⟨indent, gap, w, rest ++ '\x7b' :: b, ?_, hblank, hne, hw,
      ends_append hrest b⟩ h
    simp only [List.append_assoc]
  behind {i a b} hi _ := Classical.byContradiction fun hread => by
    have hfirst := firstWord_of_export hread
    rw [firstWord, List.dropWhile_append_of_pos hi] at hfirst
    exact absurd (show [] = "export".toList from hfirst) (by decide)

theorem inherited_varip : Inherited fun code => varipWord.occursIn code = false where
  white h := Bool.eq_false_iff.mpr fun hoccurs => by
    obtain ⟨a, b, rfl, -⟩ := varipWord_iff.mp hoccurs
    exact absurd (h 'v' (by simp)) (by decide)
  respaced h hold := Bool.eq_false_iff.mpr fun hoccurs => by
    have hfresh : Fresh (some ' ') [] := fun c hc => Option.some.inj hc ▸ (by decide)
    rw [h.varip trivial hfresh hoccurs] at hold
    cases hold
  before {a b} h := Bool.eq_false_iff.mpr fun hoccurs => by
    obtain ⟨a, rest, rfl, ha, hrest⟩ := varipWord_iff.mp hoccurs
    refine Bool.eq_false_iff.mp h
      (varipWord_iff.mpr ⟨a, rest ++ '\x7b' :: b, ?_, ha, ends_append hrest b⟩)
    simp only [List.append_assoc]
  behind {i a b} hi h := Bool.eq_false_iff.mpr fun hoccurs => by
    obtain ⟨x, rest, e, hx, hrest⟩ := varipWord_iff.mp hoccurs
    -- The word stands behind the brace.
    rcases List.append_eq_append_iff.mp e with ⟨u, rfl, hu⟩ | ⟨u, rfl, hu⟩
    · cases u with
      | nil => exact absurd (List.cons.inj hu).1 (by decide)
      | cons y u =>
        obtain ⟨rfl, hb⟩ := List.cons.inj hu
        refine Bool.eq_false_iff.mp h
          (varipWord_iff.mpr ⟨a ++ '\x7b' :: u, rest, ?_, fun c hc => hx c ?_, hrest⟩)
        · rw [hb, List.append_assoc]
          rfl
        · rw [List.getLast?_append_cons] at hc ⊢
          exact hc
    · cases u with
      | nil => exact absurd (List.cons.inj hu).1 (by decide)
      | cons y u =>
        obtain ⟨rfl, -⟩ := List.cons.inj (show 'v' :: ("arip".toList ++ rest) = _ from hu)
        exact absurd (hi 'v' (List.mem_append_right x List.mem_cons_self)) (by decide)

theorem inherited_definition : Inherited fun code => ¬ LooseDefinition code where
  white h := by
    rintro ⟨indent, front, head, rfl, -, hfront, hhead⟩
    obtain ⟨c, rest, e, hc⟩ := hfront.begins hhead
    rw [e] at h
    have := h c (List.mem_append_right indent List.mem_cons_self)
    rw [Text.not_space_of_word hc] at this
    cases this
  respaced h hold hnew := hold (h.looseDefinition hnew)
  before h hcode := h (hcode.append _)
  behind {i a b} hi _ := by
    rintro ⟨indent, front, head, e, hindent, hfront, hhead⟩
    obtain ⟨c, rest, e', hc⟩ := hfront.begins hhead
    rw [e'] at e
    have hfirst := congrArg (fun t => (List.dropWhile Text.isBlank t).head?) e
    rw [List.dropWhile_append_of_pos hi, List.dropWhile_append_of_pos hindent,
      List.dropWhile_cons_of_neg (by decide),
      List.dropWhile_cons_of_neg (by simp [not_blank_of_word hc])] at hfirst
    cases Option.some.inj hfirst
    exact absurd hc (by decide)

end Inherited

section Lines

variable {inComment : Bool} {l : Text} {ls : List Text}

def codes (inComment : Bool) (ls : List Text) : List Text :=
  (readLines (.ofLine inComment) ls).map ScriptLine.masked

/-- The lines of the mask that show something. -/
def spoken (inComment : Bool) (ls : List Text) : List Text :=
  (codes inComment ls).filter fun code => !Text.isAllSpace code

theorem codes_cons (inComment : Bool) (l : Text) (ls : List Text) :
    codes inComment (l :: ls) = shown (.ofLine inComment) l ::
      codes (substance (.ofLine inComment) [l]).inComment ls := by
  rw [codes, readLines_cons, entry_of_substance]
  rfl

theorem spoken_cons (inComment : Bool) (l : Text) (ls : List Text) :
    spoken inComment (l :: ls) = spoken inComment [l] ++
      spoken (substance (.ofLine inComment) [l]).inComment ls := by
  rw [spoken, codes_cons, spoken, codes_cons, ← List.singleton_append, List.filter_append]
  rfl

theorem spoken_append (inComment : Bool) (a b : List Text) :
    spoken inComment (a ++ b) = spoken inComment a ++
      spoken (substance (.ofLine inComment) a).inComment b := by
  induction a generalizing inComment with
  | nil => rw [substance, Mode.inBlock_ofLine]; rfl
  | cons l a ih => rw [List.cons_append, spoken_cons, ih, spoken_cons _ l a, List.append_assoc,
      substance_cons _ l a, Substance.append_eq]

theorem spoken_blank (h : ∀ c ∈ shown (.ofLine inComment) l, Text.isSpace c = true) :
    spoken inComment [l] = [] := by
  rw [spoken, codes_cons, List.filter_cons, Text.isAllSpace, List.all_eq_true.mpr h]
  rfl

theorem shown_blank (hl : Text.OneLine l) (h : Text.isAllSpace l = true) :
    ∀ c ∈ shown (.ofLine inComment) l, Text.isSpace c = true :=
  shown_white (Mode.settled_ofLine inComment) (by cases inComment <;> rfl) fun c hc =>
    ⟨List.all_eq_true.mp h c hc, fun e => hl (e ▸ hc)⟩

/-- A version comment shows nothing, also inside a block comment that it does not end. -/
theorem shown_marker (h : MarkerLine l) (hstar : '*' ∉ l) (hl : Text.OneLine l) :
    ∀ c ∈ shown (.ofLine inComment) l, Text.isSpace c = true := by
  cases inComment with
  | false => exact h.masked hl
  | true =>
    change ∀ c ∈ (cellsFrom .block l).map Cell.masked, Text.isSpace c = true
    rw [cells_block_line hstar, List.map_map]
    refine List.forall_mem_map.mpr fun c hc => ?_
    have hn : c ≠ '\n' := fun e => hl (e ▸ hc)
    rw [Function.comp_apply, Cell.masked, if_neg hn]
    rfl

/-- Writing the version comment changes no line that shows something. -/
theorem spoken_markedLines (fallback : ScriptVersion) (h : ∀ l ∈ ls, Text.OneLine l) :
    spoken false (markedLines fallback ls) = spoken false ls := by
  obtain ⟨before, after, old, new, rfl, hnew, -, e⟩ | ⟨-, e⟩ := markedLines_cases fallback ls
  · have hform := (canonicalMarker?_form hnew).1
    obtain ⟨digits, hlone, rfl⟩ := Option.map_eq_some_iff.mp hnew
    obtain ⟨hstar, hstar'⟩ := loneMarker?_no_star hlone
    have hold : Text.OneLine old := h old (by simp)
    have stands := fun inComment => standsFor_marker True inComment hlone hold
    rw [e, spoken_append, spoken_append, spoken_cons _ old,
      spoken_cons _ ("//@version=".toList ++ digits), (stands _).substance trivial,
      spoken_blank (shown_marker hform hstar' (stands false).oneLine),
      spoken_blank
      (shown_marker ((markerHead_isSome_iff old).mp (loneMarker?_eq_some hlone).1) hstar hold)]
  · rw [e]
    split
    case isTrue => rfl
    case isFalse =>
      obtain ⟨hone, -, hsub⟩ := marker_line fallback
      have hmarker : MarkerLine fallback.marker ∧ '*' ∉ fallback.marker := by
        refine ⟨⟨[], [], [], fallback.marker.drop 11, List.forall_mem_nil _, ?_⟩, ?_⟩
        · cases fallback <;> decide
        · cases fallback <;> decide
      rw [spoken_cons, spoken_blank (shown_marker hmarker.1 hmarker.2 hone),
        show Mode.ofLine false = .start from rfl, hsub]
      rfl

theorem spoken_collapseFrom (keptBlank inComment : Bool) (h : ∀ l ∈ ls, Text.OneLine l) :
    spoken inComment (collapseFrom keptBlank ls) = spoken inComment ls := by
  fun_induction collapseFrom keptBlank ls generalizing inComment with
  | case1 => rfl
  | case2 => rfl
  | case3 keptBlank l rest hrest hblank ih =>
    obtain ⟨hl, hls⟩ := List.forall_mem_cons.mp h
    obtain ⟨hwhite, -⟩ := Bool.and_eq_true_iff.mp hblank
    have hsame : (substance (.ofLine inComment) [l]).inComment = inComment := by
      rw [substance_white_line (Mode.settled_ofLine inComment) hl hwhite, substance_singleton]
      exact Mode.inBlock_ofLine inComment
    rw [ih inComment hls, spoken_cons, spoken_blank (shown_blank hl hwhite), hsame]
    rfl
  | case4 keptBlank l rest hrest hblank ih =>
    obtain ⟨-, hls⟩ := List.forall_mem_cons.mp h
    rw [spoken_cons, ih _ hls, ← spoken_cons]

theorem spoken_alignedLines (h : ∀ l ∈ ls, Text.OneLine l) :
    spoken false (alignedLines ls) = spoken false ls := by
  have blank : ∀ i, (none : Option Text) = some i → ∀ c ∈ i, Text.isBlank c = true :=
    fun i e => by cases e
  rw [alignedLines, show Mode.start = .ofLine false from rfl]
  generalize false = inComment
  generalize (none : Option Text) = indent at blank
  induction ls generalizing indent inComment with
  | nil => rfl
  | cons l ls ih =>
    obtain ⟨hl, hls⟩ := List.forall_mem_cons.mp h
    rw [readLines_cons, entry_of_substance]
    cases hcomment : isCommentLine (scriptLine (.ofLine inComment) l) with
    | false =>
      rw [alignFrom_other _ hcomment, scriptLine_text, spoken_cons,
        ih hls _ none (fun i e => by cases e), ← spoken_cons]
    | true =>
      obtain rfl := mode_of_isCommentLine hcomment
      obtain ⟨i, hi⟩ :=
        exists_indent indent hcomment
          (readLines (.ofLine (substance (.ofLine false) [l]).inComment) ls)
      have hblank := blank_of_indent_or blank hi
      have stands := standsFor_align hblank hl
      have hcomment' :
          isCommentLine (scriptLine (.ofLine false) (i ++ l.dropWhile Text.isBlank)) = true := by
        rw [isCommentLine_reindented hblank, hcomment]
      rw [alignFrom_comment hcomment hi, scriptLine_text, spoken_cons, stands.substance trivial,
        ih hls _ (some i) (fun j e => Option.some.inj e ▸ hblank), spoken_cons false l,
        spoken_blank (masked_commentLine hcomment' stands.oneLine),
        spoken_blank (masked_commentLine hcomment hl)]

theorem codes_append (inComment : Bool) (a b : List Text) :
    codes inComment (a ++ b) = codes inComment a ++
      codes (substance (.ofLine inComment) a).inComment b := by
  induction a generalizing inComment with
  | nil => rw [substance, Mode.inBlock_ofLine]; rfl
  | cons l a ih => rw [List.cons_append, codes_cons, ih, codes_cons _ l a, substance_cons _ l a,
      Substance.append_eq]; rfl

variable {Q : Text → Prop}

theorem forall_codes_iff (hQ : Inherited Q) (inComment : Bool) (ls : List Text) :
    (∀ code ∈ codes inComment ls, Q code) ↔ ∀ code ∈ spoken inComment ls, Q code := by
  refine ⟨fun h code hcode => h code (List.mem_of_mem_filter hcode), fun h code hcode => ?_⟩
  cases hwhite : Text.isAllSpace code with
  | true => exact hQ.white (List.all_eq_true.mp hwhite)
  | false => exact h code (List.mem_filter.mpr ⟨hcode, by rw [hwhite]; rfl⟩)

theorem inherited_cutBrace (hQ : Inherited Q) (hl : Text.OneLine l)
    (h : Q (shown (.ofLine inComment) l)) :
    ∀ code ∈ codes inComment ((cutBrace? (scriptLine (.ofLine inComment) l)).getD [l]), Q code := by
  cases hcut : cutBrace? (scriptLine (.ofLine inComment) l) with
  | none => exact List.forall_mem_singleton.mpr h
  | some new =>
    obtain ⟨rfl, pre, rest, b, e, -, rfl, hafter, hregion⟩ := cutBrace?_eq_some hcut
    have hquiet : Mode.Quiet '\x7b' := ⟨by decide, by decide⟩
    have hpre : Text.OneLine pre := fun k => hl (e ▸ List.mem_append_left _ k)
    have hnone : (Mode.code false).after none pre = .code b := by
      rcases Mode.after_quiet_ahead (.code false) hquiet pre with e | ⟨q, e, -⟩
      · rw [← e, hafter]
      · rw [hafter] at e
        cases e
    have hbrace (b : Bool) : shown (.code b) ('\x7b' :: rest) =
        '\x7b' :: shown (.code false) rest := by cases b <;> rfl
    have hline : shown (.code false) l = shown (.code false) pre ++ '\x7b' ::
        shown (.code false) rest := by
      rw [e, shown_append, List.head?_cons, cellsUpTo_quiet_ahead _ hquiet, hafter, hbrace]
      rfl
    have hcode :
        (substance (.ofLine false) [Text.trimRight Text.isSpace pre]).inComment = false := by
      rw [substance_trimRight (Mode.settled_ofLine false) hpre, substance_singleton]
      exact congrArg Mode.inBlock hnone
    obtain ⟨white, hwhite, hshown⟩ :=
      shown_trimRight (m := .code false) rfl hpre (by rw [substance_singleton, hnone]; rfl)
    change Q (shown (.code false) l) at h
    rw [hline] at h
    rw [Option.getD_some, codes_cons, codes_cons, hcode]
    refine List.forall_mem_cons.mpr ⟨?_, List.forall_mem_singleton.mpr ?_⟩
    · exact hQ.respaced ((Respaced.refl True (some ' ') _).trim hwhite hshown) (hQ.before h)
    · have hlead := blank_of_leadingBlanks l
      change Q (shown (.code false) (leadingBlanks l ++ '\x7b' :: rest))
      rw [shown_code_white false (Text.white_of_blanks hlead), Bool.false_and, hbrace]
      exact hQ.behind hlead h

theorem inherited_braceLines (hQ : Inherited Q) (hone : ∀ l ∈ ls, Text.OneLine l)
    (h : ∀ code ∈ codes inComment ls, Q code) :
    ∀ code ∈ codes inComment (braceLines (.ofLine inComment) ls), Q code := by
  induction ls generalizing inComment with
  | nil => exact h
  | cons l ls ih =>
    obtain ⟨hl, hls⟩ := List.forall_mem_cons.mp hone
    rw [codes_cons] at h
    obtain ⟨hfirst, hrest⟩ := List.forall_mem_cons.mp h
    rw [braceLines_cons, codes_append, (cutBrace?_keeps inComment hl).2.2]
    exact List.forall_mem_append.mpr ⟨inherited_cutBrace hQ hl hfirst, ih hls hrest⟩

/-- Lines of which each is laid out from one of some others, in order. -/
inductive AllLaidOut : Bool → List Text → List Text → Prop
  | nil (inComment : Bool) : AllLaidOut inComment [] []
  | cons {inComment : Bool} {laid l : Text} {laids ls : List Text} : LaidOut inComment laid l →
      (substance (.ofLine inComment) [laid]).inComment =
        (substance (.ofLine inComment) [l]).inComment →
      AllLaidOut (substance (.ofLine inComment) [l]).inComment laids ls →
      AllLaidOut inComment (laid :: laids) (l :: ls)

theorem allLaidOut_layLines {options : FormatOptions} (ho : options.spacesAroundOperators = true)
    (s : IndentState) (number : Nat) (inComment : Bool) (hone : ∀ l ∈ ls, Text.OneLine l)
    (hclosed : (substance (.ofLine inComment) ls).openLiterals = 0) :
    AllLaidOut inComment ((layLines options s number (readLines (.ofLine inComment) ls)).map
      fun l => l.text) ls := by
  induction ls generalizing s number inComment with
  | nil => exact .nil _
  | cons l ls ih =>
    obtain ⟨hl, hls⟩ := List.forall_mem_cons.mp hone
    rw [substance_cons, Substance.append_eq] at hclosed
    obtain ⟨hfirst, hrest⟩ := Nat.add_eq_zero_iff.mp hclosed
    rw [readLines_cons, layLines, List.map_cons, entry_of_substance]
    exact .cons (laidOut_layLine ho s number inComment hl hfirst)
      (congrArg Substance.inComment
        ((standsFor_layLine options s number inComment hl).substance ho)) (ih _ _ _ hls hrest)

def opensDeclaration (line : ScriptLine) (laid : Text) : Bool :=
  (leadingBlanks laid).isEmpty && declares (line.masked.drop (leadingBlanks line.text).length)

namespace AllLaidOut

variable {laids : List Text}

theorem inherited (h : AllLaidOut inComment laids ls) (hQ : Inherited Q)
    (hold : ∀ code ∈ codes inComment ls, Q code) :
    ∀ code ∈ codes inComment laids, Q code := by
  induction h with
  | nil => exact hold
  | cons hlaid hmode _ ih =>
    rw [codes_cons] at hold ⊢
    obtain ⟨hfirst, hrest⟩ := List.forall_mem_cons.mp hold
    rw [hmode]
    exact List.forall_mem_cons.mpr ⟨hQ.respaced hlaid.respaced hfirst, ih hrest⟩

theorem countP_declares (h : AllLaidOut inComment laids ls) :
    (codes inComment laids).countP declares =
      ((readLines (.ofLine inComment) ls).zip laids).countP fun p => opensDeclaration p.1 p.2 := by
  induction h with
  | nil => rfl
  | @cons inComment laid l laids ls hlaid hmode _ ih =>
    have hfirst : declares (shown (.ofLine inComment) laid) =
        opensDeclaration (scriptLine (.ofLine inComment) l) laid := by
      have := hlaid.declaration
      rw [Bool.eq_iff_iff, declares, Option.isSome_iff_ne_none, this, opensDeclaration,
        Bool.and_eq_true, List.isEmpty_iff, declares, Option.isSome_iff_ne_none, scriptLine_text]
      rfl
    rw [codes_cons, readLines_cons, List.zip_cons_cons, List.countP_cons, List.countP_cons, hmode,
      ih, hfirst, entry_of_substance]

end AllLaidOut

end Lines

section Format

variable (fallback : ScriptVersion) (options : FormatOptions)

/-- The lines of a script that are laid out: its version comment is written, and its braces stand on
lines of their own. -/
def bracedLines (ls : List Text) : List Text :=
  linesIf options.bracesOnNewLine (braceLines .start)
    (linesIf options.updateVersionComment (markedLines fallback) ls)

def laidPairs (script : Text) : List (ScriptLine × Text) :=
  (readLines .start (bracedLines fallback options (Text.lines script))).zip
    (laidLines options (bracedLines fallback options (Text.lines script)))

theorem lines_format {script : Text} (hr : '\r' ∉ script) :
    Text.lines (format fallback options script).formatted = formatLines fallback options
      (Text.lines script) := by
  rw [format_lines, Text.normalizeBreaks_of_not_mem hr,
    (areLines_formatLines fallback options (areLines_lines script)).lines_unlines]

theorem codes_lines (t : Text) :
    Text.lines (mask t) = codes false (Text.lines t) := Convert.lines_mask_readLines t

variable {options}

theorem substance_bracedLines {script : Text} (hr : '\r' ∉ script) :
    substance .start (bracedLines fallback options (Text.lines script)) =
      ⟨(insertedMarker fallback options script).map (⟨·, .lineComment, false⟩), [], 0, false⟩ ++
        substance .start (Text.lines script) := by
  have hmarked := keepsBehind_syncVersionComment fallback options True script
  have hbraced :=
    ((keeps_stageIf (keeps_moveBraces True) options.bracesOnNewLine _).transBehind
      hmarked).substance trivial
  have hls := areLines_lines script
  have hmarkedLines :=
    @areLines_linesIf (markedLines fallback) (fun _ => areLines_markedLines fallback)
      options.updateVersionComment _ hls
  rw [Text.normalizeBreaks_of_not_mem hr] at hbraced
  have hlines : Text.lines (stageIf options.bracesOnNewLine moveBraces
      (stageIf options.updateVersionComment (syncVersionComment fallback) script).text).text =
        bracedLines fallback options (Text.lines script) := by
    have hmark :=
      stageIf_unlines (syncVersionComment_lines fallback) options.updateVersionComment hls
    rw [Text.unlines_lines] at hmark
    rw [hmark, stageIf_unlines moveBraces_lines _ hmarkedLines,
      (areLines_braced fallback options hls).lines_unlines, bracedLines]
  rwa [hlines] at hbraced

/-- What is no error of structure stays none. -/
theorem structuralImbalance_format (ho : options.spacesAroundOperators = true) {script : Text}
    (hr : '\r' ∉ script) :
    structuralImbalance (format fallback options script).formatted =
      structuralImbalance script := by
  have hsub := (keepsBehind_format fallback options script).substance ho
  rw [Text.normalizeBreaks_of_not_mem hr] at hsub
  rw [structuralImbalance_eq, structuralImbalance_eq, hsub, Substance.imbalance,
    Substance.append_eq]
  simp only [bracketCounts_comment, Nat.zero_add]
  rfl

/-- Behind the layout no line that shows something changes. -/
theorem spoken_formatLines {ls : List Text} (h : AreLines ls) :
    spoken false (formatLines fallback options ls) =
      spoken false (laidLines options (bracedLines fallback options ls)) := by
  have hbraced := areLines_braced fallback options h
  have hlaid := areLines_of_allStandFor (allStandFor_laidLines options hbraced) hbraced
  have hcollapsed := areLines_collapsed options hbraced
  rw [formatLines, linesIf]
  have hcollapse : spoken false (linesIf options.collapseBlankLines (collapseFrom false)
      (laidLines options (bracedLines fallback options ls))) =
        spoken false (laidLines options (bracedLines fallback options ls)) := by
    rw [linesIf]
    split
    · exact spoken_collapseFrom false false hlaid.2
    · rfl
  split
  · exact (spoken_alignedLines hcollapsed.2).trans hcollapse
  · exact hcollapse

theorem allLaidOut_format (ho : options.spacesAroundOperators = true) {script : Text}
    (hr : '\r' ∉ script) (hbalanced : structuralImbalance script = 0) :
    AllLaidOut false (laidLines options (bracedLines fallback options (Text.lines script)))
      (bracedLines fallback options (Text.lines script)) := by
  refine allLaidOut_layLines ho .start 1 false
    (areLines_braced fallback options (areLines_lines script)).2 ?_
  have hsub := @substance_bracedLines fallback options script hr
  rw [structuralImbalance_eq, Substance.imbalance] at hbalanced
  rw [show Mode.ofLine false = .start from rfl, hsub, Substance.append_eq]
  dsimp only
  omega

variable {Q : Text → Prop}

theorem inherited_format (hQ : Inherited Q) (ho : options.spacesAroundOperators = true)
    {script : Text} (hr : '\r' ∉ script) (hbalanced : structuralImbalance script = 0)
    (hold : ∀ code ∈ Text.lines (mask script), Q code) :
    ∀ code ∈ Text.lines (mask (format fallback options script).formatted), Q code := by
  have hls := areLines_lines script
  have hmarked :
      ∀ code ∈ codes false
      (linesIf options.updateVersionComment (markedLines fallback) (Text.lines script)),
      Q code := by
    rw [linesIf]
    split
    · rw [forall_codes_iff hQ, spoken_markedLines fallback hls.2, ← forall_codes_iff hQ,
        ← codes_lines]
      exact hold
    · rwa [← codes_lines]
  have hbraced : ∀ code ∈ codes false (bracedLines fallback options (Text.lines script)),
      Q code := by
    rw [bracedLines, linesIf]
    split
    · exact inherited_braceLines hQ
        (areLines_linesIf (fun _ => areLines_markedLines fallback) _ hls).2 hmarked
    · exact hmarked
  rw [codes_lines, lines_format fallback options hr, forall_codes_iff hQ,
    spoken_formatLines fallback hls, ← forall_codes_iff hQ]
  exact (allLaidOut_format fallback ho hr hbalanced).inherited hQ hbraced

/-- Where no line of a script is a definition up to its blanks, formatting makes none one. -/
theorem not_plain_format (ho : options.spacesAroundOperators = true) {script : Text}
    (hr : '\r' ∉ script) (hbalanced : structuralImbalance script = 0)
    (htight : ∀ code ∈ Text.lines (mask script), ¬ LooseDefinition code) :
    ∀ code ∈ Text.lines (mask (format fallback options script).formatted),
      ¬ Convert.PlainDefinition code :=
  fun code hcode ⟨_, hread, hmethod⟩ =>
    inherited_format fallback inherited_definition ho hr hbalanced htight code hcode
      (looseDefinition_of_read hread hmethod)

theorem countP_declares_spoken (inComment : Bool) (ls : List Text) :
    (spoken inComment ls).countP declares = (codes inComment ls).countP declares := by
  rw [spoken, List.countP_filter]
  refine List.countP_congr fun code _ => ?_
  rw [Bool.and_eq_true]
  refine ⟨fun h => h.1, fun h => ⟨h, ?_⟩⟩
  cases hwhite : Text.isAllSpace code with
  | false => rfl
  | true =>
    have := declaration_white (List.all_eq_true.mp hwhite)
    rw [declares, this] at h
    cases h

/-- A formatted script is declared by the lines that declare it behind their indentation and are
laid out without one. -/
theorem countP_declares_format (ho : options.spacesAroundOperators = true) {script : Text}
    (hr : '\r' ∉ script) (hbalanced : structuralImbalance script = 0) :
    (Text.lines (mask (format fallback options script).formatted)).countP declares =
      (laidPairs fallback options script).countP fun p => opensDeclaration p.1 p.2 := by
  have hls := areLines_lines script
  rw [codes_lines, lines_format fallback options hr, ← countP_declares_spoken,
    spoken_formatLines fallback hls, countP_declares_spoken,
    (allLaidOut_format fallback ho hr hbalanced).countP_declares]
  rfl

/-- A formatted script is accepted as the script was exactly if one line declares it, and in the
newest version no line defines a function without the mark of methods. -/
theorem accepted_format_iff (ho : options.spacesAroundOperators = true) {script : Text}
    (hr : '\r' ∉ script) {v : ScriptVersion} (h : Accepted v script) :
    Accepted v (format fallback options script).formatted ↔
      ((laidPairs fallback options script).countP fun p => opensDeclaration p.1 p.2) = 1 ∧
        (v = .v6 → ∀ code ∈ Text.lines (mask (format fallback options script).formatted),
          ¬ Convert.PlainDefinition code) := by
  have hcount := countP_declares_format fallback ho hr h.balanced
  constructor
  · intro haccepted
    exact ⟨hcount.symm.trans haccepted.declared,
      fun hv code hcode ⟨d, hread, hmethod⟩ => haccepted.methods hv code hcode d hread hmethod⟩
  · rintro ⟨hone, hplain⟩
    exact
      { balanced := (structuralImbalance_format fallback ho hr).trans h.balanced
        declared := hcount.trans hone
        exports := fun hv => inherited_format fallback inherited_export ho hr h.balanced
          (h.exports hv)
        methods := fun hv code hcode d hread hmethod => hplain hv code hcode ⟨d, hread, hmethod⟩
        varip := fun hv => inherited_format fallback inherited_varip ho hr h.balanced (h.varip hv) }

end Format

section Validation

instance (code : Text) : Decidable (Convert.PlainDefinition code) :=
  decidable_of_iff (((functionDefinition : Pattern Char (FunctionDefinition Char)).readAt? code).any
    (·.method.isNone) = true) (by
    rw [Option.any_eq_true, Convert.PlainDefinition]
    simp only [Option.isNone_iff_eq_none])

variable {τ κ : Type} [Timeline τ] [Clock κ τ] {settings : ValidationSettings τ}
    {fallback : ScriptVersion} {options : FormatOptions}
  {budget : Option τ} {clock : κ} {script : Text} {r : ValidationResult}

theorem valid_format_iff (hnone : settings.ignoredRules = [])
    (hwarnings : settings.warningsAsErrors = false) (ho : options.spacesAroundOperators = true)
    (hreturns : '\r' ∉ script) {v : ScriptVersion} (hv : detectVersion script fallback = .ok v)
    (hr : (validate settings fallback none budget clock
      (format fallback options script).formatted).outcome = .ok r) :
    r.valid = true ↔ Accepted v (format fallback options script).formatted := by
  rw [validate_valid_iff hnone hwarnings hr, detectVersion_format fallback ho hreturns, hv]
  constructor
  · rintro ⟨v', hsame, h⟩
    exact Except.ok.inj hsame ▸ h
  · exact fun h => ⟨v, rfl, h⟩

/-- A valid script keeps its version when it is formatted, its structure stays sound, and no export
and no `varip` comes up. So it stays valid exactly if one line that declares it behind its
indentation is laid out without one, and in the newest version no line has become a definition
without the mark of methods. A line can become one only if it is one already up to its blanks
(`format_keeps_valid_of_tight`), as `array <int> f(x) =>` is for the blank before its angle bracket.
-/
theorem format_keeps_valid_iff (hnone : settings.ignoredRules = [])
    (hwarnings : settings.warningsAsErrors = false) (ho : options.spacesAroundOperators = true)
    (hreturns : '\r' ∉ script) (hr : (validate settings fallback none budget clock script).outcome =
      .ok r) (hvalid : r.valid = true) :
    ∃ v, detectVersion script fallback = .ok v ∧
    detectVersion (format fallback options script).formatted fallback = .ok v ∧
      ∀ (budget : Option τ) (clock : κ),
        ((∃ result, (validate settings fallback none budget clock
          (format fallback options script).formatted).outcome = .ok result) ∨
          ∃ e, (validate settings fallback none budget clock
            (format fallback options script).formatted).outcome = .error (.timeout e)) ∧
        ∀ result, (validate settings fallback none budget clock
          (format fallback options script).formatted).outcome = .ok result →
          (result.valid = true ↔
            ((laidPairs fallback options script).countP fun p => opensDeclaration p.1 p.2) = 1 ∧
              (v = .v6 → ∀ code ∈ Text.lines (mask (format fallback options script).formatted),
                ¬ Convert.PlainDefinition code)) := by
  obtain ⟨v, hv, haccepted⟩ := (validate_valid_iff hnone hwarnings hr).mp hvalid
  have hversion := (detectVersion_format fallback ho hreturns).trans hv
  refine ⟨v, hv, hversion, fun budget clock =>
    ⟨validate_returns_or_late hversion, fun result hresult => ?_⟩⟩
  rw [valid_format_iff hnone hwarnings ho hreturns hv hresult,
    accepted_format_iff fallback ho hreturns haccepted]

/-- A script whose declaration and whose method stay where they are. -/
theorem format_keeps_valid_iff_method :
    let s := "//@version=6\nstudy( 1 )\nmethod  f(x)=>x".toList
    let z := "//@version=6\nstudy(1)\nmethod f(x) => x".toList
    Convert.Validates s true ∧ (format .v5 .standard s).formatted = z ∧
      Convert.Validates z true := by
  intro s z
  have hvalid : Convert.Validates s true := Convert.validates (by decide +kernel)
  have hformat : (format .v5 .standard s).formatted = z := by decide +kernel
  have hreturns :
      (validate (κ := SteadyClock) .standard .v5 none none ⟨0.0, 0.5⟩ z).outcome.isOk = true := by
      decide +kernel
  refine ⟨hvalid, hformat, ?_⟩
  obtain ⟨r, hr, hrvalid⟩ := hvalid
  obtain ⟨v, -, -, hresult⟩ :=
    @format_keeps_valid_iff Float SteadyClock _ _ .standard .v5 .standard none
      ⟨0.0, 0.5⟩ s r rfl rfl rfl
    (by decide) hr hrvalid
  rw [hformat] at hresult
  cases hz : (validate (κ := SteadyClock) .standard .v5 none none ⟨0.0, 0.5⟩ z).outcome with
  | error e =>
    rw [hz] at hreturns
    cases hreturns
  | ok result =>
    refine ⟨result, hz, ((hresult none ⟨0.0, 0.5⟩).2 result hz).mpr
      ⟨by decide +kernel, fun _ => ?_⟩⟩
    decide +kernel

/-- A call that comes to stand at the margin, and a type that loses its blank. -/
theorem format_invalidates :
    let s := "//@version=5\nindicator(\"x\")\n    strategy(\"y\")".toList
    let z := "//@version=5\nindicator(\"x\")\nstrategy(\"y\")".toList
    let s' := "//@version=6\nstudy(1)\narray <int> f(x) => x".toList
    let z' := "//@version=6\nstudy(1)\narray<int> f(x) => x".toList
    (Convert.Validates s true ∧ (format .v5 .standard s).formatted = z ∧
      Convert.Validates z false) ∧
      Convert.Validates s' true ∧ (format .v5 .standard s').formatted = z' ∧
      Convert.Validates z' false := by
  intro s z s' z'
  refine ⟨⟨Convert.validates ?_, ?_, Convert.validates ?_⟩, Convert.validates ?_, ?_,
    Convert.validates ?_⟩ <;> decide +kernel

/-- A valid script in the newest version of which no line is a definition up to its blanks, and a
valid script in any other, stays valid exactly if one line that declares it behind its indentation
is laid out without one. -/
theorem format_keeps_valid_of_tight (hnone : settings.ignoredRules = [])
    (hwarnings : settings.warningsAsErrors = false) (ho : options.spacesAroundOperators = true)
    (hreturns : '\r' ∉ script) (hr : (validate settings fallback none budget clock script).outcome =
      .ok r) (hvalid : r.valid = true)
    (htight : detectVersion script fallback = .ok .v6 →
      ∀ code ∈ Text.lines (mask script), ¬ LooseDefinition code)
    {budget : Option τ} {clock : κ} {result : ValidationResult}
    (hresult : (validate settings fallback none budget clock
      (format fallback options script).formatted).outcome = .ok result) :
    result.valid = true ↔
      ((laidPairs fallback options script).countP fun p => opensDeclaration p.1 p.2) = 1 := by
  obtain ⟨v, hv, haccepted⟩ := (validate_valid_iff hnone hwarnings hr).mp hvalid
  rw [valid_format_iff hnone hwarnings ho hreturns hv hresult,
    accepted_format_iff fallback ho hreturns haccepted]
  refine and_iff_left_of_imp fun _ hnewest => ?_
  exact not_plain_format fallback ho hreturns haccepted.balanced (htight (hnewest ▸ hv))

end Validation

end PineTools.Layout
