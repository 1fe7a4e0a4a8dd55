import PineTools.Proofs.Layout.Idempotence
import PineTools.Proofs.Repair.Versions

/-! The version of a formatted script. Each stage of the formatter keeps what the lines of a script
state: the canonical form of a marker has its digits, a marker is no code that a brace could be
moved from or a space put into, and no line turns into a marker. -/
namespace PineTools.Layout

open Reader

section Lines

theorem markerLine_of_readAt? {l digits : Text} (h : marker.readAt? l = some digits) :
    MarkerLine l := by
  obtain ⟨h, rest, ⟨b₁, b₂, b₃, b₄, hb, rfl⟩, -, -, -, rfl⟩ := readAt?_marker_iff.mp h
  rw [List.forall_mem_append] at hb
  exact ⟨b₁, b₂, b₃, b₄ ++ (digits ++ rest), hb.1, by simp only [List.append_assoc]⟩

theorem readAt?_of_not_markerLine {l : Text} (h : ¬ MarkerLine l) : marker.readAt? l = none :=
  Option.eq_none_iff_forall_ne_some.mpr fun _ e => h (markerLine_of_readAt? e)

theorem MarkerLine.append {l : Text} (h : MarkerLine l) (t : Text) : MarkerLine (l ++ t) := by
  obtain ⟨b₁, b₂, b₃, rest, hb, rfl⟩ := h
  exact ⟨b₁, b₂, b₃, rest ++ t, hb, by simp only [List.append_assoc]⟩

theorem readAt?_marker_white (l : Text) {white : Text} (hw : ∀ c ∈ white, Text.isSpace c = true) :
    marker.readAt? (l ++ white) = marker.readAt? l := by
  have hnot {c : Char} (hc : c ∈ white) : Text.isDecimal c = false :=
    Bool.eq_false_iff.mpr fun e => by
    have := isSpace_of_isDecimal e
    rw [hw c hc] at this
    cases this
  refine Option.ext fun digits => ?_
  simp only [readAt?_marker_iff]
  constructor
  · rintro ⟨h, rest, hh, hne, hdigits, hrest, e⟩
    rw [← List.append_assoc] at e
    rcases List.append_eq_append_iff.mp e with ⟨u, hu, hwhite⟩ | ⟨u, rfl, hrest'⟩
    · -- The last digit is no white space.
      have hu' : u = [] := by
        rcases List.eq_nil_or_concat u with rfl | ⟨init, x, rfl⟩
        · rfl
        · rw [List.concat_eq_append] at hu hwhite
          have hlast := congrArg List.getLast? hu
          rw [← List.append_assoc, List.getLast?_concat,
            List.getLast?_append_of_ne_nil _ hne] at hlast
          have hx : x ∈ white := by
            rw [hwhite]
            exact List.mem_append_left _ (List.mem_append_right init (List.mem_singleton_self x))
          have hdigit := hdigits x (List.mem_of_getLast? hlast)
          rw [hnot hx] at hdigit
          cases hdigit
      subst hu'
      exact ⟨h, [], hh, hne, hdigits, fun c hc => (by cases hc), by
        rw [List.append_nil, hu, List.append_nil]⟩
    · refine ⟨h, u, hh, hne, hdigits, fun c hc => hrest c ?_, List.append_assoc ..⟩
      rw [hrest', List.head?_append, hc, Option.some_or]
  · rintro ⟨h, rest, hh, hne, hdigits, hrest, rfl⟩
    refine ⟨h, rest ++ white, hh, hne, hdigits, fun c hc => ?_, by simp only [List.append_assoc]⟩
    cases rest with
    | nil => exact hnot (List.mem_of_head? hc)
    | cons d rest => exact hrest c hc

theorem readAt?_marker_trimRight (l : Text) :
    marker.readAt? (Text.trimRight Text.isSpace l) = marker.readAt? l := by
  obtain ⟨white, e, hw⟩ := Text.trimRight_append_white Text.isSpace l
  conv_rhs => rw [e]
  exact (readAt?_marker_white _ hw).symm

theorem readAt?_marker_indent {i : Text} (hi : ∀ c ∈ i, Text.isBlank c = true) (l : Text) :
    marker.readAt? (i ++ l) = marker.readAt? l := by
  refine Option.ext fun digits => ?_
  simp only [readAt?_marker_iff]
  constructor
  · rintro ⟨h, rest, ⟨b₁, b₂, b₃, b₄, hb, rfl⟩, hne, hdigits, hrest, e⟩
    simp only [List.forall_mem_append] at hb
    have hdrop := congrArg (List.dropWhile Text.isBlank) e
    rw [List.dropWhile_append_of_pos hi, List.append_assoc,
      List.dropWhile_append_of_pos hb.1.1.1] at hdrop
    refine ⟨leadingBlanks l ++
      ("//".toList ++ (b₂ ++ ("@version".toList ++ (b₃ ++ ("=".toList ++ b₄))))), rest,
      ⟨leadingBlanks l, b₂, b₃, b₄, ?_, rfl⟩, hne, hdigits, hrest, ?_⟩
    · simp only [List.forall_mem_append]
      exact ⟨⟨⟨blank_of_leadingBlanks l, hb.1.1.2⟩, hb.1.2⟩, hb.2⟩
    · conv_lhs => rw [leadingBlanks_append l, hdrop]
      simp only [List.append_assoc]
      rfl
  · rintro ⟨h, rest, ⟨b₁, b₂, b₃, b₄, hb, rfl⟩, hne, hdigits, hrest, rfl⟩
    refine ⟨_, rest, ⟨i ++ b₁, b₂, b₃, b₄, ?_, rfl⟩, hne, hdigits, hrest, by
      simp only [List.append_assoc]⟩
    simp only [List.forall_mem_append] at hb ⊢
    exact ⟨⟨⟨⟨hi, hb.1.1.1⟩, hb.1.1.2⟩, hb.1.2⟩, hb.2⟩

theorem readAt?_marker_reindent {i : Text} (hi : ∀ c ∈ i, Text.isBlank c = true) (l : Text) :
    marker.readAt? (i ++ l.dropWhile Text.isBlank) = marker.readAt? l := by
  rw [readAt?_marker_indent hi]
  conv_rhs => rw [leadingBlanks_append l]
  exact (readAt?_marker_indent (blank_of_leadingBlanks l) _).symm

theorem readAt?_canonicalMarker {old new : Text} (h : canonicalMarker? old = some new) :
    marker.readAt? new = marker.readAt? old := by
  obtain ⟨digits, hlone, rfl⟩ := Option.map_eq_some_iff.mp h
  obtain ⟨⟨digits', rest⟩, hread, rfl⟩ := Option.map_eq_some_iff.mp hlone
  obtain ⟨_, l₁, h₁, h⟩ := bind_eq_some.mp hread
  obtain ⟨_, l₂, h₂, h⟩ := bind_eq_some.mp h
  obtain ⟨digits, l₃, h₃, h⟩ := bind_eq_some.mp h
  obtain ⟨_, l₄, -, h⟩ := bind_eq_some.mp h
  obtain ⟨_, l₅, -, h⟩ := bind_eq_some.mp h
  cases pure_eq_some.mp h
  have hold : marker.readAt? old = some digits' := by
    rw [Pattern.readAt?, marker_none_eq, Option.map_eq_some_iff]
    exact ⟨(digits', l₃), bind_eq_some.mpr ⟨_, l₁, h₁, bind_eq_some.mpr ⟨_, l₂, h₂, h₃⟩⟩, rfl⟩
  obtain ⟨-, -, -, hne, hdigits, -⟩ := readAt?_marker_iff.mp hold
  rw [hold]
  refine readAt?_marker_iff.mpr
    ⟨"//@version=".toList, [], ⟨[], [], [], [], List.forall_mem_nil _, rfl⟩, hne, hdigits,
      fun c hc => (by cases hc), by rw [List.append_nil]⟩

/-- A line of which nothing but white space lies outside a line comment shows nothing in the mask.
-/
theorem masked_of_solid_comment {l : Text} (hl : Text.OneLine l)
    (h : ∀ c ∈ solidCells (cellsFrom (.code false) l), c.region = .lineComment) :
    ∀ c ∈ (cellsFrom (.code false) l).map Cell.masked, Text.isSpace c = true := by
  induction l with
  | nil => exact List.forall_mem_nil _
  | cons c cs ih =>
    cases hc : Text.isSpace c with
    | true =>
      rw [cellsFrom_code_white false hc] at h ⊢
      rw [solidCells_cons_white hc] at h
      rw [List.map_cons, Cell.masked_of_code rfl]
      exact List.forall_mem_cons.mpr ⟨hc, ih hl.tail h⟩
    | false =>
      have hfirst : ((Mode.code false).step c cs.head?).1.region = .lineComment := by
        refine h _ (List.mem_filter.mpr ⟨List.mem_cons_self, ?_⟩)
        rw [Mode.step_char, hc]
        rfl
      rw [Mode.step] at hfirst
      rcases Mode.stepCode_cases false c cs.head? with ⟨rfl, hahead, -⟩ | ⟨-, -, e⟩ | ⟨q, -, -,
        e⟩ | ⟨-, -, e⟩
      · obtain ⟨rest, rfl⟩ := List.head?_eq_some_iff.mp hahead
        exact masked_comment_line (b := []) (List.forall_mem_nil _)
          fun k => hl (List.mem_cons_of_mem _ (List.mem_cons_of_mem _ k))
      all_goals
        rw [e] at hfirst
        cases hfirst

/-- A line of code does not turn into a marker by being laid out. -/
theorem layLine_of_markerLine {options : FormatOptions} (ho : options.spacesAroundOperators = true)
    {s : IndentState} {number : Nat} {inComment : Bool} {l : Text} (hl : Text.OneLine l)
    (h : MarkerLine (layLine options s number (scriptLine (.ofLine inComment) l)).1.text) :
    (layLine options s number (scriptLine (.ofLine inComment) l)).1.text =
      Text.trimRight Text.isSpace l := by
  have hstands := standsFor_layLine options s number inComment hl
  have hwhite : Text.isAllSpace l = false := by
    rw [← Text.isAllSpace_of_solid hstands.solid, h.not_blank]
  cases inComment with
  | true =>
    rw [layLine]
    simp only [scriptLine_text, scriptLine_inComment, Mode.inBlock_ofLine, hwhite,
      Bool.false_eq_true, if_false, if_true]
  | false =>
    have hcomment : ∀ c ∈ solidCells (cellsFrom (.code false) l), c.region = .lineComment := by
      obtain ⟨b₁, b₂, b₃, rest, hb, e⟩ := h
      simp only [List.forall_mem_append] at hb
      have hsame := hstands.substance ho
      have hone := hstands.oneLine
      generalize b₂ ++ ("@version".toList ++ (b₃ ++ ("=".toList ++ rest))) = x at e
      have hlaid : (layLine options s number (scriptLine (.ofLine false) l)).1.text =
          b₁ ++ '/' :: '/' :: x := e
      rw [hlaid] at hsame hone
      change substance (.code false) _ = substance (.code false) _ at hsame
      rw [substance_leading_white (Text.white_of_blanks hb.1.1),
        substance_comment_line fun k =>
          hone (List.mem_append_right b₁ (List.mem_cons_of_mem _ (List.mem_cons_of_mem _ k))),
        substance_singleton] at hsame
      have hsolid : (Text.solid ('/' :: '/' :: x)).map (⟨·, .lineComment, false⟩) =
          solidCells (cellsFrom (.code false) l) :=
        congrArg Substance.solid hsame
      intro c hc
      rw [← hsolid] at hc
      obtain ⟨d, -, rfl⟩ := List.mem_map.mp hc
      rfl
    rw [layLine]
    simp only [scriptLine_text, scriptLine_inComment, Mode.inBlock_ofLine, hwhite,
      Bool.false_eq_true, if_false]
    have hmasked : ∀ c ∈ (scriptLine (.ofLine false) l).masked, Text.isSpace c = true :=
      masked_of_solid_comment hl hcomment
    rw [strip_eq_nil hmasked]
    rfl

theorem readAt?_layLine {options : FormatOptions} (ho : options.spacesAroundOperators = true)
    (s : IndentState) (number : Nat) (inComment : Bool) {l : Text} (hl : Text.OneLine l) :
    marker.readAt? (layLine options s number (scriptLine (.ofLine inComment) l)).1.text =
      marker.readAt? l := by
  by_cases hold : MarkerLine l
  · rw [layLine_markerLine options s number inComment hold hl, readAt?_marker_trimRight]
  · by_cases hnew : MarkerLine (layLine options s number (scriptLine (.ofLine inComment) l)).1.text
    · rw [layLine_of_markerLine ho hl hnew, readAt?_marker_trimRight]
    · rw [readAt?_of_not_markerLine hold, readAt?_of_not_markerLine hnew]

theorem statedNumber_cutBrace {inComment : Bool} {l : Text} (hl : Text.OneLine l) :
    statedNumber ((cutBrace? (scriptLine (.ofLine inComment) l)).getD [l]) = marker.readAt? l := by
  cases hcut : cutBrace? (scriptLine (.ofLine inComment) l) with
  | none => rw [Option.getD_none, statedNumber_singleton]
  | some new =>
    obtain ⟨-, pre, rest, b, e, -, rfl, -⟩ := cutBrace?_eq_some hcut
    have hnot : ¬ MarkerLine l := fun h => by
      rw [cutBrace?_markerLine inComment h hl] at hcut
      cases hcut
    have hfirst : ¬ MarkerLine (Text.trimRight Text.isSpace pre) := fun h => hnot <| by
      obtain ⟨white, hpre, -⟩ := Text.trimRight_append_white Text.isSpace pre
      rw [e, hpre, List.append_assoc]
      exact h.append _
    have hsecond : ¬ MarkerLine (leadingBlanks l ++ '\x7b' :: rest) := by
      rintro ⟨b₁, b₂, b₃, rest', hb, e⟩
      simp only [List.forall_mem_append] at hb
      have hdrop := congrArg (List.dropWhile Text.isBlank) e
      rw [List.dropWhile_append_of_pos (blank_of_leadingBlanks l),
        List.dropWhile_append_of_pos hb.1.1] at hdrop
      exact absurd (List.cons.inj hdrop).1 (by decide)
    rw [Option.getD_some, statedNumber_cons, statedNumber_singleton,
      readAt?_of_not_markerLine hfirst, readAt?_of_not_markerLine hsecond,
      readAt?_of_not_markerLine hnot, Option.or_none]

end Lines

theorem statedNumber_markedLines (fallback : ScriptVersion) (ls : List Text) :
    versionOfDigits fallback (statedNumber (markedLines fallback ls)) =
      versionOfDigits fallback (statedNumber ls) := by
  obtain ⟨before, after, old, new, rfl, hnew, -, e⟩ | ⟨-, e⟩ := markedLines_cases fallback ls
  · rw [e, statedNumber_append, statedNumber_append, statedNumber_cons, statedNumber_cons,
      readAt?_canonicalMarker hnew]
  · rw [e]
    split
    case isTrue => rfl
    case isFalse h =>
      have hnone : statedNumber ls = none := List.findSome?_eq_none_iff.mpr fun l hl =>
        readAt?_of_not_markerLine fun hmarker => h ((hasMarker_iff ls).mpr ⟨l, hl, hmarker⟩)
      have hfirst := versionOfDigits_marker fallback fallback
      obtain ⟨digits, hdigits⟩ := Option.isSome_iff_exists.mp (isMarkerLine_marker fallback)
      rw [hdigits] at hfirst
      rw [hnone, statedNumber_cons, hdigits, Option.some_or, hfirst]
      rfl

theorem statedNumber_braceLines (inComment : Bool) {ls : List Text}
    (hone : ∀ l ∈ ls, Text.OneLine l) :
    statedNumber (braceLines (.ofLine inComment) ls) = statedNumber ls := by
  induction ls generalizing inComment with
  | nil => rfl
  | cons l ls ih =>
    obtain ⟨hl, hls⟩ := List.forall_mem_cons.mp hone
    rw [braceLines_cons, statedNumber_append, ih _ hls, statedNumber_cutBrace hl, statedNumber_cons]

theorem statedNumber_laidLines {options : FormatOptions} (ho : options.spacesAroundOperators = true)
    {ls : List Text} (hone : ∀ l ∈ ls, Text.OneLine l) : statedNumber (laidLines options ls) =
      statedNumber ls := by
  rw [laidLines, show Mode.start = .ofLine false from rfl]
  generalize IndentState.start = s
  generalize 1 = number
  generalize false = inComment
  induction ls generalizing s number inComment with
  | nil => rfl
  | cons l ls ih =>
    obtain ⟨hl, hls⟩ := List.forall_mem_cons.mp hone
    rw [readLines_cons, layLines, List.map_cons, statedNumber_cons,
      readAt?_layLine ho s number inComment hl, entry_of_substance, ih hls, statedNumber_cons]

theorem statedNumber_collapseFrom (keptBlank : Bool) (ls : List Text) :
    statedNumber (collapseFrom keptBlank ls) = statedNumber ls := by
  have hblank {l : Text} (h : Text.isAllSpace l = true) : marker.readAt? l = none :=
    readAt?_of_not_markerLine fun hmarker => by
    rw [hmarker.not_blank] at h
    cases h
  fun_induction collapseFrom keptBlank ls with
  | case1 => rfl
  | case2 => rfl
  | case3 keptBlank l rest hrest hwhite ih =>
    rw [Bool.and_eq_true] at hwhite
    rw [ih, statedNumber_cons, hblank hwhite.1, Option.none_or]
  | case4 keptBlank l rest hrest hwhite ih =>
    rw [statedNumber_cons, ih, statedNumber_cons]

theorem statedNumber_alignedLines (ls : List Text) :
    statedNumber (alignedLines ls) = statedNumber ls := by
  have blank : ∀ i, (none : Option Text) = some i → ∀ c ∈ i, Text.isBlank c = true :=
    fun i e => by cases e
  rw [alignedLines]
  generalize Mode.start = m
  generalize (none : Option Text) = indent at blank
  induction ls generalizing indent m with
  | nil => rfl
  | cons l ls ih =>
    rw [readLines_cons]
    cases hcomment : isCommentLine (scriptLine m l) with
    | false =>
      rw [alignFrom_other _ hcomment, scriptLine_text, statedNumber_cons,
        ih (m.after none l).entry none (fun i e => by cases e), statedNumber_cons]
    | true =>
      obtain ⟨i, hi⟩ := exists_indent indent hcomment (readLines (m.after none l).entry ls)
      have hblank := blank_of_indent_or blank hi
      rw [alignFrom_comment hcomment hi, scriptLine_text, statedNumber_cons,
        readAt?_marker_reindent hblank, ih (m.after none l).entry (some i)
          (fun j e => Option.some.inj e ▸ hblank), statedNumber_cons]

theorem detectVersion_format (fallback : ScriptVersion) {options : FormatOptions}
    (ho : options.spacesAroundOperators = true) {t : Text} (ht : '\r' ∉ t) :
    detectVersion (format fallback options t).formatted fallback = detectVersion t fallback := by
  have hlines := areLines_lines t
  rw [format_lines, Text.normalizeBreaks_of_not_mem ht, detectVersion_eq, detectVersion_eq,
    (areLines_formatLines fallback options hlines).lines_unlines]
  change versionOfDigits fallback (statedNumber _) = versionOfDigits fallback (statedNumber _)
  generalize Text.lines t = ls at hlines
  have hif {stage : List Text → List Text} (wanted : Bool) {ls : List Text}
    (h : statedNumber (stage ls) = statedNumber ls) :
      statedNumber (linesIf wanted stage ls) = statedNumber ls := by
    cases wanted with
    | false => rfl
    | true => exact h
  have hmarked := @areLines_linesIf (markedLines fallback) (fun _ => areLines_markedLines fallback)
    options.updateVersionComment _ hlines
  have hbraced :
    statedNumber
    (braceLines .start (linesIf options.updateVersionComment (markedLines fallback) ls)) =
      statedNumber (linesIf options.updateVersionComment (markedLines fallback) ls) :=
        statedNumber_braceLines false hmarked.2
  rw [formatLines, hif _ (statedNumber_alignedLines _), hif _ (statedNumber_collapseFrom false _),
    statedNumber_laidLines ho (areLines_braced fallback options hlines).2, hif _ hbraced, linesIf]
  split
  · exact statedNumber_markedLines fallback ls
  · rfl

end PineTools.Layout

namespace PineTools

/-- Fixing and formatting a script keep its version. -/
theorem fix_and_format_keep_version (fallback : ScriptVersion) (t : Text) :
    detectVersion (Repair.fix fallback .shipped t).script fallback = detectVersion t fallback ∧
      ('\r' ∉ t → ∀ options : FormatOptions, options.spacesAroundOperators = true →
        detectVersion (Layout.format fallback options t).formatted fallback =
          detectVersion t fallback) :=
  ⟨Repair.detectVersion_fix fallback Repair.plainTables_shipped t, fun ht _ ho =>
    Layout.detectVersion_format fallback ho ht⟩

/-- Here the first marker lies in a block comment, and an exported variable is split and spaced. -/
theorem fix_and_format_keep_version_commented :
    let t := "/*\n  // @version = 4 */\n//@version=6\nexport var x=f(1 2".toList
    '\r' ∉ t ∧ FormatOptions.standard.spacesAroundOperators = true ∧ detectVersion t .v5 = .ok .v4 ∧
      detectVersion (Repair.fix .v5 .shipped t).script .v5 = .ok .v4 ∧
        detectVersion (Layout.format .v5 .standard t).formatted .v5 = .ok .v4 := by
  intro t
  have hbreaks : '\r' ∉ t := by decide
  have hspaces : FormatOptions.standard.spacesAroundOperators = true := rfl
  have hversion : detectVersion t .v5 = .ok .v4 := by decide +kernel
  obtain ⟨hfix, hformat⟩ := fix_and_format_keep_version .v5 t
  exact ⟨hbreaks, hspaces, hversion, hfix.trans hversion,
    (hformat hbreaks _ hspaces).trans hversion⟩

end PineTools
