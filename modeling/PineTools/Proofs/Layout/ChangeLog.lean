import PineTools.Proofs.Layout.Idempotence

/-! What the change log does not tell. A stage without an entry leaves its text alone. The layout of
lines has entries for indentation and spacing, and without them it still takes the white space from
the ends of lines. -/
namespace PineTools.Layout

theorem countedChange_eq_none {n : Nat} {describe : Nat → String} :
    countedChange n describe = none ↔ n = 0 := by
  rw [countedChange]
  split <;> simp_all

/-- Without an entry for the change log the stage changes nothing. -/
def Candid (stage : Text → Staged) : Prop := ∀ t, (stage t).change = none → (stage t).text = t

theorem Candid.stageIf {stage : Text → Staged} (h : Candid stage) (wanted : Bool) :
    Candid (stageIf wanted stage) := by
  intro t hchange
  cases wanted with
  | true => exact h t hchange
  | false => rfl

theorem candid_normalizeLineEndings : Candid normalizeLineEndings := by
  intro t hchange
  rw [normalizeLineEndings] at hchange ⊢
  split at hchange
  · cases hchange
  · next hreturn => rw [if_neg hreturn]

theorem candid_syncVersionComment (fallback : ScriptVersion) :
    Candid (syncVersionComment fallback) := by
  intro t hchange
  rw [syncVersionComment] at hchange ⊢
  split at hchange
  · split at hchange
    · next hsame => rw [if_pos hsame]
    · cases hchange
  · split at hchange
    · next hstated => rw [if_pos hstated]
    · cases hchange

theorem candid_moveBraces : Candid moveBraces := by
  intro t hchange
  simp only [moveBraces, countedChange_eq_none, List.countP_eq_zero] at hchange
  have hapart : BracesApart (readLines .start (Text.lines t)) := by
    rw [← scriptLines_eq]
    exact fun line hline => by simpa using hchange line hline
  rw [moveBraces_lines, braceLines_eq hapart, Text.unlines_lines]

theorem candid_collapseBlankLines : Candid collapseBlankLines := by
  intro t hchange
  simp only [collapseBlankLines, countedChange_eq_none, Nat.sub_eq_zero_iff_le] at hchange
  calc (collapseBlankLines t).text = Text.unlines (collapseFrom false (Text.lines t)) := rfl
    _ = Text.unlines (Text.lines t) := by
      rw [(collapseFrom_sublist false (Text.lines t)).eq_of_length_le hchange]
    _ = t := Text.unlines_lines t

theorem readLines_texts (m : Mode) (ls : List Text) :
    (readLines m ls).map ScriptLine.text = ls := by
  induction ls generalizing m with
  | nil => rfl
  | cons l ls ih => rw [readLines_cons, List.map_cons, scriptLine_text, ih]

theorem eq_of_zip_countP {lines : List ScriptLine} {news : List Text}
    (hlength : news.length = lines.length) (h : (lines.zip news).countP (fun p => p.1.text != p.2) =
      0) : news = lines.map ScriptLine.text := by
  induction lines generalizing news with
  | nil => exact List.length_eq_zero_iff.mp hlength
  | cons line lines ih =>
    cases news with
    | nil => cases hlength
    | cons new news =>
      rw [List.zip_cons_cons, List.countP_cons, Nat.add_eq_zero_iff] at h
      have hsame : line.text = new := by simpa using h.2
      rw [List.map_cons, hsame, ← ih (Nat.succ.inj hlength) h.1]

theorem candid_alignComments : Candid alignComments := by
  intro t hchange
  simp only [alignComments, countedChange_eq_none] at hchange
  rw [scriptLines_eq, ← alignedLines] at hchange
  have hlength : (alignedLines (Text.lines t)).length =
      (readLines .start (Text.lines t)).length := by
    rw [(allStandFor_alignedLines True (areLines_lines t)).length,
      ← List.length_map ScriptLine.text, readLines_texts]
  rw [alignComments_lines, eq_of_zip_countP hlength hchange, readLines_texts, Text.unlines_lines]

/-- Spacing keeps the first character of a line. -/
theorem head?_spaceLine (options : FormatOptions) (opened : List Char) {c : Char}
    (hc : Text.isBlank c = false) (cs : Text) :
    (spaceLine options opened (cellsFrom (.code false) (c :: cs))).head? = some c := by
  have hblank : (((Mode.code false).step c cs.head?).1.isCode && Text.isBlank c) = false := by
    rw [hc, Bool.and_false]
  have roled :=
    allRoled_assignRoles opened none none
      (anglesNext_zero (tokens (cellsFrom (.code false) (c :: cs))))
  rw [spaceLine]
  generalize assignRoles opened none none 0 (tokens (cellsFrom (.code false) (c :: cs))) =
    ts at roled ⊢
  rw [tokens, tokensAfter_cellsFrom [] hblank rfl] at roled
  obtain _ | ⟨hroled, -⟩ := roled
  rw [joinTokens, hroled.text]
  rfl

theorem isSpace_of_strip {l : Text} {c : Char} {cs : Text} (h : Text.strip l = c :: cs) :
    Text.isSpace c = false := by
  obtain ⟨white, e, -⟩ := Text.trimRight_append_white Text.isSpace (Text.trimLeft Text.isSpace l)
  rw [← Text.strip, h] at e
  have hhead := List.head?_dropWhile_not Text.isSpace l
  rw [← Text.trimLeft, e] at hhead
  simpa using hhead

theorem strip_ne_nil {l : Text} (h : Text.isAllSpace l = false) : Text.strip l ≠ [] := by
  intro hstrip
  obtain ⟨c, hc, hsolid⟩ := List.all_eq_false.mp h
  rcases Text.white_or_mem_strip hc with hwhite | hmem
  · exact hsolid hwhite
  · rw [hstrip] at hmem
    cases hmem

theorem layCode_reindented (options : FormatOptions) (s : IndentState) (number : Nat)
    (line : ScriptLine) (code : Text) :
    (layCode options s number line code).1.reindented =
      (leadingBlanks (layCode options s number line code).1.text != leadingBlanks line.text) := rfl

theorem layCode_respaced (options : FormatOptions) (s : IndentState) (number : Nat)
    (line : ScriptLine) (code : Text) :
    (layCode options s number line code).1.respaced =
      ((layCode options s number line code).1.text.dropWhile Text.isBlank !=
        Text.strip line.text) := rfl

theorem not_blank_of_solid {c : Char} (h : Text.isSpace c = false) : Text.isBlank c = false :=
  Bool.eq_false_iff.mpr fun hblank =>
    Bool.noConfusion (h.symm.trans (Text.isSpace_of_isBlank hblank))

theorem strip_append_solid {lead : Text} (hlead : ∀ x ∈ lead, Text.isSpace x = true) {c : Char}
    (hc : Text.isSpace c = false) (cs : Text) : Text.strip (lead ++ c :: cs) =
      c :: Text.trimRight Text.isSpace cs := by
  rw [Text.strip, Text.trimLeft, List.dropWhile_append_of_pos hlead,
    List.dropWhile_cons_of_neg (by simp [hc])]
  exact trimRight_append_solid hc [] cs

theorem first_of_trimmed {indent lead spaced ds : Text} {c d : Char}
    (hindent : ∀ x ∈ indent, Text.isBlank x = true) (hlead : ∀ x ∈ lead, Text.isBlank x = true)
    (hspaced : spaced.head? = some c) (hc : Text.isBlank c = false) (hd : Text.isBlank d = false)
    (h : Text.trimRight Text.isSpace (indent ++ spaced) = lead ++ d :: ds) : c = d := by
  obtain ⟨white, e, -⟩ := Text.trimRight_append_white Text.isSpace (indent ++ spaced)
  have hbehind : (d :: (ds ++ white)).head?.any Text.isBlank = false := hd
  rw [h, List.append_assoc, List.cons_append] at e
  rw [(Text.run_append_inj hindent hlead (by rw [hspaced]; exact hc) hbehind e).2] at hspaced
  exact (Option.some.inj hspaced).symm

/-- The line does not count for the change log. -/
def IndentedLine.Unlogged (laid : IndentedLine) : Prop := laid.reindented = false ∧
    laid.respaced = false

/-- A line of code that is neither indented nor spaced anew only loses white space at its end. -/
theorem layCode_unlogged (options : FormatOptions) (s : IndentState) (number : Nat) {l code : Text}
    (hsolid : Text.isAllSpace l = false)
    (h : (layCode options s number (scriptLine (.ofLine false) l) code).1.Unlogged) :
    (layCode options s number (scriptLine (.ofLine false) l) code).1.text =
      Text.trimRight Text.isSpace l := by
  obtain ⟨hindent, hspaces⟩ := h
  obtain ⟨indent, hblank, e⟩ := layCode_text options s number (scriptLine (.ofLine false) l) code
  have hcells : (scriptLine (.ofLine false) l).cells.drop (leadingBlanks l).length =
      cellsFrom (.code false) (l.dropWhile Text.isBlank) := cells_behind_blanks l
  rw [layCode_reindented, bne_eq_false_iff_eq, scriptLine_text] at hindent
  rw [layCode_respaced, bne_eq_false_iff_eq, scriptLine_text] at hspaces
  rw [scriptLine_text, hcells] at e
  generalize (layCode options s number (scriptLine (.ofLine false) l) code).1.text =
    laid at e hindent hspaces ⊢
  have hlaid : laid = leadingBlanks l ++ Text.strip l := by
    rw [← hindent, ← hspaces, ← leadingBlanks_append]
  have hlead := blank_of_leadingBlanks l
  have hhead := head_dropWhile_blank l
  have hparts := leadingBlanks_append l
  generalize leadingBlanks l = lead at hlead hparts hlaid
  generalize l.dropWhile Text.isBlank = rest at e hhead hparts
  obtain ⟨d, ds, hstrip⟩ := List.exists_cons_of_ne_nil (strip_ne_nil hsolid)
  have hd := isSpace_of_strip hstrip
  have hblanks : ∀ x ∈ lead, Text.isSpace x = true := Text.white_of_blanks hlead
  cases rest with
  | nil =>
    rw [hparts, List.append_nil, strip_eq_nil hblanks] at hstrip
    cases hstrip
  | cons c cs =>
    -- The first character behind the blanks stays the first, so it is solid like that of the
    -- stripped line.
    have hcd : c = d :=
      first_of_trimmed hblank hlead (head?_spaceLine options s.nesting.opened hhead cs) hhead
      (not_blank_of_solid hd) (by rw [← e, hlaid, hstrip])
    subst hcd
    rw [hlaid, hparts, strip_append_solid hblanks hd, trimRight_append_solid hd]

theorem layLine_unlogged (options : FormatOptions) (s : IndentState) (number : Nat)
    (inComment : Bool) {l : Text}
    (h : (layLine options s number (scriptLine (.ofLine inComment) l)).1.Unlogged) :
    (layLine options s number (scriptLine (.ofLine inComment) l)).1.text =
      Text.trimRight Text.isSpace l := by
  rw [layLine] at h ⊢
  simp only [scriptLine_text, scriptLine_inComment, Mode.inBlock_ofLine] at h ⊢
  split
  · next hwhite => exact (trimRight_eq_nil (List.all_eq_true.mp hwhite)).symm
  · next hsolid =>
    rw [if_neg hsolid] at h
    cases inComment with
    | true => rfl
    | false =>
      simp only [Bool.false_eq_true, if_false] at h ⊢
      split
      · rfl
      · next hcode =>
        rw [if_neg hcode] at h
        exact layCode_unlogged options s number (Bool.eq_false_iff.mpr hsolid) h

theorem layLines_cons (options : FormatOptions) (s : IndentState) (number : Nat) (line : ScriptLine)
    (rest : List ScriptLine) :
    layLines options s number (line :: rest) =
      (layLine options s number line).1 :: layLines options (layLine options s number line).2
        (number + 1) rest := rfl

theorem layLines_unlogged (options : FormatOptions) (s : IndentState) (number : Nat)
    (inComment : Bool) {ls : List Text}
    (h : ∀ laid ∈ layLines options s number (readLines (.ofLine inComment) ls), laid.Unlogged) :
    (layLines options s number (readLines (.ofLine inComment) ls)).map (fun laid => laid.text) =
      ls.map (Text.trimRight Text.isSpace) := by
  induction ls generalizing s number inComment with
  | nil => rfl
  | cons l ls ih =>
    rw [readLines_cons, layLines_cons, entry_of_substance] at h ⊢
    obtain ⟨hl, hls⟩ := List.forall_mem_cons.mp h
    rw [List.map_cons, List.map_cons, layLine_unlogged options s number inComment hl, ih _ _ _ hls]

theorem indentLines_unlogged (options : FormatOptions) {t : Text}
    (hindent : (indentLines options t).countP (fun l => l.reindented) = 0)
    (hspaces : (indentLines options t).countP (fun l => l.respaced) = 0) :
    (indentLines options t).map (fun l => l.text) =
      (Text.lines t).map (Text.trimRight Text.isSpace) := by
  rw [List.countP_eq_zero] at hindent hspaces
  have h : ∀ laid ∈ indentLines options t, laid.Unlogged := fun laid hlaid =>
    ⟨Bool.eq_false_iff.mpr (hindent laid hlaid), Bool.eq_false_iff.mpr (hspaces laid hlaid)⟩
  rw [indentLines, scriptLines_eq] at h ⊢
  exact layLines_unlogged options .start 1 false h

theorem format_unlogged_text (fallback : ScriptVersion) (options : FormatOptions) {script : Text}
    (h : (format fallback options script).changes = []) :
    (format fallback options script).formatted =
      Text.unlines ((Text.lines script).map (Text.trimRight Text.isSpace)) := by
  rw [format] at h ⊢
  simp only [List.filterMap_eq_nil_iff, List.forall_mem_cons, id_eq, countedChange_eq_none] at h ⊢
  obtain ⟨hendings, hmarked, hbraced, hindent, hspaces, hcollapsed, haligned, -⟩ := h
  rw [(candid_alignComments.stageIf _) _ haligned,
    (candid_collapseBlankLines.stageIf _) _ hcollapsed,
    indentLines_unlogged options hindent hspaces, (candid_moveBraces.stageIf _) _ hbraced,
    ((candid_syncVersionComment fallback).stageIf _) _ hmarked,
    candid_normalizeLineEndings _ hendings]

theorem map_trimRight_eq_self_iff {ls : List Text} :
    ls.map (Text.trimRight Text.isSpace) = ls ↔ ∀ l ∈ ls, Trimmed l := by
  constructor
  · intro h l hl
    rw [← h] at hl
    obtain ⟨l', -, rfl⟩ := List.mem_map.mp hl
    exact trimmed_trimRight l'
  · intro h
    exact List.map_congr_left (fun l hl => (h l hl).trimRight) |>.trans (List.map_id ls)

theorem areLines_trimRight {ls : List Text} (h : AreLines ls) :
    AreLines (ls.map (Text.trimRight Text.isSpace)) :=
  ⟨fun hnil => h.1 (List.map_eq_nil_iff.mp hnil), List.forall_mem_map.mpr fun l hl =>
    Text.oneLine_trimRight (h.2 l hl) _⟩

/-- With an empty change log the formatter has done nothing but to take the white space from the
ends of lines. The formatted script is the script itself exactly if no line of it ends in white
space. -/
theorem format_unlogged (fallback : ScriptVersion) (options : FormatOptions) {script : Text}
    (h : (format fallback options script).changes = []) :
    (format fallback options script).formatted =
      Text.unlines ((Text.lines script).map (Text.trimRight Text.isSpace)) ∧
      ((format fallback options script).formatted = script ↔ ∀ l ∈ Text.lines script,
        Trimmed l) := by
  have hformatted := format_unlogged_text fallback options h
  refine ⟨hformatted, ?_⟩
  rw [hformatted, ← map_trimRight_eq_self_iff]
  constructor
  · intro e
    rw [← (areLines_trimRight (areLines_lines script)).lines_unlines, e]
  · intro e
    rw [e, Text.unlines_lines]

/-- White space behind a comment, within one and behind code. -/
theorem format_unlogged_ends :
    let script := "//@version=5
// a 
/* b 
 c */
plot(close) ".toList
    (format .v5 .standard script).changes = [] ∧
      (format .v5 .standard script).formatted = "//@version=5
// a
/* b
 c */
plot(close)".toList ∧
      ¬ ((format .v5 .standard script).formatted = script) := by
  intro script
  have hchanges : (format .v5 .standard script).changes = [] := by decide +kernel
  obtain ⟨hformatted, hsame⟩ := format_unlogged .v5 .standard hchanges
  refine ⟨hchanges, hformatted.trans (by decide +kernel), ?_⟩
  rw [hsame]
  intro htrimmed
  exact Bool.noConfusion
    (htrimmed "plot(close) ".toList (by decide +kernel) ' ' (by decide +kernel))

/-- A blank goes from the end of a line of code, and the log does not tell. -/
theorem format_drops_line_end_unlogged :
    (format .v5 .standard "//@version=5
plot(close) ".toList).changes = [] ∧
      (format .v5 .standard "//@version=5
plot(close) ".toList).formatted ≠ "//@version=5
plot(close) ".toList := by
  decide +kernel

end PineTools.Layout
