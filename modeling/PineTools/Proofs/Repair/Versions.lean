import PineTools.Proofs.Repair.Comments
import PineTools.Proofs.Repair.Structure
import PineTools.Proofs.Scan.Mask
import PineTools.Proofs.Version.Stability

/-! The version of a repaired script. A script without marker gets that of the version it is taken
for, and every other repair leaves the first marker as it is: it writes behind a line, or into a
line from a place of code on. -/
namespace PineTools.Repair

open Reader Mode

theorem oneLine_of_masked {cs : List Cell} (h : ∀ c ∈ cs, c.masked ≠ '\n') :
    Text.OneLine (writtenText cs) := by
  intro k
  obtain ⟨c, hc, e⟩ := List.mem_map.mp k
  exact h c hc ((Cell.masked_newline c).mpr e)

theorem oneLine_strip {t : Text} (h : Text.OneLine t) : Text.OneLine (Text.strip t) :=
  fun k => h ((List.dropWhile_sublist _).mem (Text.mem_of_mem_trimRight k))

theorem detectVersion_addMarker (fallback : ScriptVersion) (t : Text) :
    detectVersion (continueWith ⟨t, []⟩ (addMarker fallback)).text fallback =
      detectVersion t fallback := by
  rw [continueWith_text, addMarker]
  cases hfind : findMarker t with
  | error e => rfl
  | ok found =>
    cases found with
    | some found => rfl
    | none =>
      have hmarked : Marked fallback (fallback.marker ++ '\n' :: t) :=
        ⟨[], Text.lines t, Text.lines_append_newline (oneLine_marker fallback) t,
          List.forall_mem_nil _, isMarkerLine_marker fallback⟩
      have hdetect : detectVersion t fallback = .ok fallback := by
        rw [detectVersion, hfind]
        rfl
      exact (hmarked.detectVersion fallback).trans hdetect.symm

/-- Behind a marker nothing but another digit would count. -/
theorem readAt?_marker_halts {c : Char} (hblank : Text.isBlank c = false)
    (hsign : c ∉ "//@version=".toList) (hdigit : Text.isDecimal c = false) (l rest : Text) :
    marker.readAt? (l ++ c :: rest) = marker.readAt? l := by
  have hblanks : HaltsAt c (discard blanks : Reader Char Unit) := (haltsAt_run hblank).discard
  have hmarker : HaltsAt c (marker none) :=
    (Layout.haltsAt_markerHead hblank hsign).bind fun _ => hblanks.bind fun _ => haltsAt_run1 hdigit
  rw [Pattern.readAt?, Pattern.readAt?, hmarker l c rest rfl, Option.map_map]
  rfl

theorem readAt?_marker_closedLine (m : Mode) (l : Text) :
    marker.readAt? (closedLine m l) = marker.readAt? l := by
  rw [closedLine]
  split
  case h_1 q _ =>
    have hquote (l : Text) : marker.readAt? (l ++ [q.char]) = marker.readAt? l := by
      cases q <;> exact readAt?_marker_halts (by decide) (by decide) (by decide) l []
    rw [closingOf]
    split
    · exact readAt?_marker_halts (by decide) (by decide) (by decide) l [q.char]
    · exact hquote l
  case h_2 => rfl

theorem firstMarker_closeLiterals (t : Text) :
    firstMarker (closeLiterals t).text = firstMarker t := by
  rw [firstMarker, lines_closeLiterals, firstMarker]
  generalize Text.lines t = ls
  generalize Mode.start = m
  induction ls generalizing m with
  | nil => rfl
  | cons l ls ih =>
    rw [closedLines, statedNumber_cons, statedNumber_cons, readAt?_marker_closedLine, ih]

/-- Where brackets are closed something other than white space stands in front. -/
theorem solid_before_endOfCode {t : Text} (hb : (matchBrackets t).unclosed ≠ []) :
    ∃ c, (t.take (endOfCode t)).getLast? = some c ∧ Text.isSpace c = false := by
  obtain ⟨init, x, white, hcells, hend, hx, -⟩ := exists_endOfCode hb
  rw [hend, take_stretch hcells, writtenText, List.map_append, List.map_singleton]
  exact ⟨x.char, List.getLast?_concat, (Bool.or_eq_false_iff.mp hx).2⟩

theorem firstMarker_closeBrackets {t : Text} (h : unclosedLiterals t = []) :
    firstMarker (closeBrackets t).text = firstMarker t := by
  by_cases hb : (matchBrackets t).unclosed = []
  · rw [closeBrackets_of_closed hb]
  · obtain ⟨-, hbare⟩ := bare_endOfCode h hb
    obtain ⟨c, hc, hsolid⟩ := solid_before_endOfCode hb
    have htame := @tame_missingClosers t
    have hne : missingClosers t ≠ [] := by
      rw [missingClosers, Ne, List.map_eq_nil_iff, List.reverse_eq_nil_iff]
      exact hb
    have hsound : Edit.Sound t ⟨endOfCode t, endOfCode t, missingClosers t⟩ :=
      Edit.sound_of_tame hne (fun c hc => (htame c hc).1)
        (fun e => (htame '*' (List.mem_of_head? e)).2.1 rfl) hbare (.inl hbare)
    have hslice : Text.slice t (endOfCode t) (endOfCode t) = [] := by
      rw [Text.slice, List.drop_eq_nil_iff, List.length_take]
      exact Nat.min_le_left ..
    have hkeeps := hsound.keepsMarker (Nat.le_refl _) (by rw [hslice]; exact List.not_mem_nil)
      (fun k => (htame _ k).2.2 rfl)
      (.inl ⟨c, hc, ?_, ?_⟩)
    · rw [closeBrackets_text t hb, hkeeps _ rfl, List.take_append_drop]
    · refine Bool.eq_false_iff.mpr fun hblank => ?_
      rw [Text.isSpace_of_isBlank hblank] at hsolid
      cases hsolid
    · rintro rfl
      exact absurd hsolid (by decide)

theorem code_of_digit {t : Text} {c : Cell} (h : c ∈ cells t)
    (hc : Text.isDecimal c.masked = true) :
    c.region = .code ∧ c.char = c.masked := by
  have hne {d : Char} (hd : Text.isDecimal d = false) : c.masked ≠ d := fun e => by
    rw [e, hd] at hc
    cases hc
  exact code_of_masked h (hne (by decide)) (hne (by decide)) (hne (by decide)) fun q => by
    cases q <;> exact hne (by decide)

theorem firstMarker_separateInputs (t : Text) :
    firstMarker (separateInputs t).text = firstMarker t := by
  rw [separateInputs_text]
  refine Edit.firstMarker_splice (ordered_inputEdits t) fun e he => ?_
  obtain ⟨m, hm, rfl⟩ := List.mem_map.mp he
  obtain ⟨hsound, hswap, -⟩ := sound_inputEdit hm
  obtain ⟨a, rest, x, y, hgap, hstart, -, -, hdigit⟩ := gap_of_input hm
  have hsplit : cells t = (a ++ [x]) ++ (m.value.gap ++ y :: rest) := by
    rw [hgap.cells_eq, List.append_assoc, List.singleton_append]
  obtain ⟨-, hchar⟩ :=
    @code_of_digit t x (by rw [hgap.cells_eq]; exact List.mem_append_right a List.mem_cons_self)
      hdigit
  have hslice : Text.slice t (inputEdit m).start (inputEdit m).stop = writtenText m.value.gap :=
    congrArg Swap.old hswap
  have hseparator : Text.OneLine separator := by decide
  refine hsound.keepsMarker (Nat.le_add_right _ _) ?_ hseparator (.inl ⟨x.char, ?_, ?_⟩)
  · rw [hslice]
    intro k
    obtain ⟨c, hc, e⟩ := List.mem_map.mp k
    exact (hgap.region c hc).1 e
  · have hlen : (a ++ [x]).length = a.length + 1 := by
      rw [List.length_append, List.length_singleton]
    rw [hstart, ← hlen, take_stretch hsplit, writtenText, List.map_append, List.map_singleton,
      List.getLast?_concat]
  · rw [hchar]
    exact ⟨(isBlank_of_isDecimal hdigit).1, (isBlank_of_isDecimal hdigit).2.1⟩

theorem firstMarker_separateArguments (t : Text) :
    firstMarker (separateArguments t).text = firstMarker t := by
  rw [separateArguments_text]
  refine Edit.firstMarker_splice (ordered_callEdits t) fun e he => ?_
  obtain ⟨call, hc, rfl⟩ := List.mem_map.mp he
  obtain ⟨a, args, rest, x, y, hargs⟩ := callArguments_of_mem hc
  have hslice : Text.slice t call.argsStart call.argsStop = writtenText args := hargs.slice
  have hedit := callEdit_eq hc
  have hsound := sound_callEdit hc
  rw [hedit, argsOf, hslice] at hsound ⊢
  refine hsound.keepsMarker ?_ ?_ ?_ (.inl ⟨x.char, ?_, ?_⟩)
  · dsimp only
    rw [hargs.start, hargs.stop]
    exact Nat.le_add_right ..
  · dsimp only
    rw [hslice]
    exact hargs.oneLine
  · exact oneLine_strip (oneLine_fillGaps hargs.oneLine)
  · have hlen : (a ++ [x]).length = a.length + 1 := by
      rw [List.length_append, List.length_singleton]
    dsimp only
    rw [hargs.start, ← hlen, take_stretch hargs.cells_split, writtenText, List.map_append,
      List.map_singleton, List.getLast?_concat]
  · rw [hargs.opens_code.2]
    exact ⟨by decide, by decide⟩

theorem IsName.first {name : Text} (h : IsName name) :
    ∃ c, name.head? = some c ∧ Text.isBlank c = false ∧ c ≠ '/' ∧ c ≠ '\n' := by
  obtain ⟨c, rest, rfl⟩ := List.exists_cons_of_ne_nil h.1
  have hc := h.2 c List.mem_cons_self
  exact ⟨c, rfl, (not_blank_of_isWordOrDot hc).1, (tame_of_isWordOrDot hc).1.1,
    (not_blank_of_isWordOrDot hc).2⟩

theorem IsName.oneLine {name : Text} (h : IsName name) : Text.OneLine name :=
  fun k => (not_blank_of_isWordOrDot (h.2 _ k)).2 rfl

theorem firstMarker_renameCalls {name new : Text} (h : IsName name) (hnew : IsName new) (t : Text) :
    firstMarker (renameCalls name new t).1 = firstMarker t := by
  rw [renameCalls_eq h]
  refine Edit.firstMarker_splice (ordered_renameEdits h new t) fun e he => ?_
  obtain ⟨m, hm, rfl⟩ := List.mem_map.mp he
  obtain ⟨hsound, hswap⟩ := sound_renameEdit h hnew hm
  have hslice : Text.slice t (renameEdit new m).start (renameEdit new m).stop = name :=
    congrArg Swap.old hswap
  refine hsound.keepsMarker (Nat.le_add_right _ _) ?_ hnew.oneLine (.inr ⟨?_, hnew.first⟩)
  · rw [hslice]
    exact h.oneLine
  · rw [hslice]
    exact h.first

theorem keptByRenames_firstMarker (t : Text) :
    KeptByRenames fun u => firstMarker u = firstMarker t :=
  fun _ _ _ h hnew hu => (firstMarker_renameCalls h hnew _).trans hu

theorem firstMarker_replaceStudy {tables : RenameTables Text} (h : PlainTables tables) (t : Text) :
    firstMarker (replaceStudy tables t).text = firstMarker t :=
  (keptByRenames_firstMarker t).replaceStudy h rfl

theorem firstMarker_namespaceBuiltins {tables : RenameTables Text} (h : PlainTables tables)
    (t : Text) :
    firstMarker (namespaceBuiltins tables t).text = firstMarker t :=
  (keptByRenames_firstMarker t).namespaceBuiltins h rfl

section Exports

variable {t : Text} {m : Match Cell (ExportedVariable Cell)} {a rest : List Cell}

/-- The text begins with a character that ends no sign and begins no marker. -/
def BeginsQuiet (x : Text) : Prop := ∃ c, x.head? = some c ∧ Quiet c ∧ Text.isBlank c = false

theorem ExportLine.front (h : ExportLine t m a rest) :
    ∀ c ∈ (writtenText a).getLast?, c = '\n' := by
  intro c hc
  rw [writtenText, List.getLast?_map] at hc
  obtain ⟨y, hy, rfl⟩ := Option.map_eq_some_iff.mp hc
  exact char_of_newline (h.before y hy)

theorem ExportLine.keyword (h : ExportLine t m a rest) (hm : m ∈ exportedVariables t) :
    ∃ k more, exportLead m = m.value.indent ++ k :: more ∧ k.region = .code ∧ k.char = 'e' := by
  obtain ⟨k, more, hlead, hk⟩ := exportLead_keyword hm
  have hmem : k ∈ cellsFrom .start t := by
    rw [← cells, h.cells_eq, hlead]
    exact List.mem_append_right a
      (List.mem_append_left _ (List.mem_append_right _ List.mem_cons_self))
  have hshown : k.masked ≠ '\n' ∧ k.masked ≠ ' ' ∧ k.masked ≠ Cell.filler ∧ ∀ q : Quote,
      k.masked ≠ q.char := by
    rw [hk]
    exact ⟨by decide, by decide, by decide, fun q => by cases q <;> decide⟩
  obtain ⟨hregion, hchar⟩ := code_of_masked hmem hshown.1 hshown.2.1 hshown.2.2.1 hshown.2.2.2
  exact ⟨k, more, hlead, hregion, hchar.trans hk⟩

theorem ExportLine.readAt?_marker (h : ExportLine t m a rest) (hm : m ∈ exportedVariables t)
    {x x' : Text} (hx : BeginsQuiet x) (hx' : BeginsQuiet x') :
    marker.readAt? (writtenText m.value.indent ++ x) =
      marker.readAt? (writtenText m.value.indent ++ x') := by
  obtain ⟨k, more, hlead, hregion, hchar⟩ := h.keyword hm
  have hcells : cells t = (a ++ m.value.indent) ++
      k :: (more ++ ((m.value.value ++ m.value.tail) ++ rest)) := by
    rw [h.cells_eq, hlead]
    simp only [List.append_assoc, List.cons_append]
  obtain ⟨b, hb⟩ := mode_at_code hcells (by rw [hchar]; decide) hregion
  obtain ⟨inComment, hmode⟩ := mode_at_line h.front
  have hwritten : writtenText (a ++ m.value.indent) = writtenText a ++ writtenText m.value.indent :=
    List.map_append
  rw [hwritten, after_append, hmode] at hb
  have hfree {x : Text} (hx : BeginsQuiet x) :
      MarkerFree (.ofLine inComment) (writtenText m.value.indent) x := by
    obtain ⟨c, hc, hquiet, hblank⟩ := hx
    refine ⟨?_, .inr ⟨c, hc, hblank, hquiet.1⟩⟩
    rw [hc, ← (readsAlike_of_code hb (.inr fun d hd => Option.some.inj hd ▸ hquiet)).2, hb]
    rfl
  exact readAt?_marker_congr (hfree hx) (hfree hx')

theorem ExportLine.oneLine (h : ExportLine t m a rest) (v : ScriptVersion) :
    Text.OneLine (Text.slice t m.start m.stop) ∧
    Text.OneLine (newLead v m.value ++ (writtenText m.value.value ++ exportSuffix m.value.tail)) ∧
      Text.OneLine (newExport m.value) := by
  have hlead {gs : List Cell} (hgs : ∀ c ∈ gs, c ∈ exportLead m) :
      Text.OneLine (writtenText gs) := by
    refine oneLine_of_masked fun c hc e => ?_
    have := h.lead.2 c (hgs c hc)
    rw [e] at this
    exact absurd this (by decide)
  have htail : Text.OneLine (writtenText m.value.tail) := by
    intro k
    obtain ⟨c, hc, e⟩ := List.mem_map.mp k
    refine (mem_exportTail h.tail (t := t) (fun c hc => ?_) hc).1 e
    rw [h.cells_eq]
    simp only [List.mem_append]
    exact .inr (.inr (.inl (.inr hc)))
  have hsuffix : Text.OneLine (exportSuffix m.value.tail) := by
    rw [exportSuffix]
    split
    · exact List.not_mem_nil
    · have herased :
          Text.OneLine (writtenText (m.value.tail.eraseP fun c => Glyph.seen c == ';')) :=
        fun k => htail ((List.eraseP_sublist.map Cell.char).mem k)
      exact Text.oneLine_append.mpr ⟨(by decide : Text.OneLine [' ', ' ']), oneLine_strip herased⟩
  have hkeyword : Text.OneLine (exportKeyword v m.value.kind).toList := by
    rw [exportKeyword]
    split <;> decide
  have hvalue := oneLine_of_masked h.value
  have hname := hlead h.name.2
  have hindent := hlead h.indent
  have hwritten : writtenText (m.value.value ++ m.value.tail) = writtenText m.value.value ++
      writtenText m.value.tail :=
    List.map_append
  have hsign : Text.OneLine (' ' :: (writtenText m.value.name ++ " = ".toList)) :=
    Text.oneLine_append.mpr ⟨Text.oneLine_append.mpr ⟨(by decide : Text.OneLine [' ']), hname⟩,
      (by decide)⟩
  simp only [h.slice, hwritten, newLead, newExport, Text.oneLine_append]
  exact ⟨⟨hlead fun c hc => hc, hvalue, htail⟩, ⟨⟨hindent, hkeyword, hsign⟩, hvalue, hsuffix⟩,
    hindent, by decide, hname⟩

/-- The line of an exported variable and the two that replace it state the same version. -/
theorem ExportLine.readAt?_slice (h : ExportLine t m a rest) (hm : m ∈ exportedVariables t)
    (v : ScriptVersion) :
    marker.readAt? (newLead v m.value ++ (writtenText m.value.value ++ exportSuffix m.value.tail)) =
        marker.readAt? (Text.slice t m.start m.stop) ∧
      marker.readAt? (newExport m.value) = marker.readAt? (Text.slice t m.start m.stop) := by
  obtain ⟨k, more, hlead, -, hchar⟩ := h.keyword hm
  -- All three go on with a letter behind the indentation.
  have hletter {c : Char} (hc : (c ≠ '/' ∧ c ≠ '*') ∧ Text.isBlank c = false) (x : Text) :
      BeginsQuiet (c :: x) := ⟨c, rfl, hc⟩
  have hkeyword (x : Text) : BeginsQuiet ((exportKeyword v m.value.kind).toList ++ x) := by
    rw [exportKeyword]
    split <;> exact hletter (by decide) _
  have hline : writtenText (exportLead m) = writtenText m.value.indent ++
      'e' :: writtenText more := by
    rw [hlead, writtenText, List.map_append, List.map_cons, hchar]
    rfl
  simp only [h.slice, hline, newLead, newExport, List.append_assoc]
  exact ⟨h.readAt?_marker hm (hkeyword _) (hletter (by decide) _),
    h.readAt?_marker hm (hletter (by decide) _) (hletter (by decide) _)⟩

theorem ExportLine.keepsMarker (h : ExportLine t m a rest) (hm : m ∈ exportedVariables t)
    (v : ScriptVersion) :
    Edit.KeepsMarker t (exportEdit v m) := by
  intro back hback
  obtain ⟨hold, hdeclared, hexported⟩ := h.oneLine v
  obtain ⟨hfirst, hsecond⟩ := h.readAt?_slice hm v
  have hbehind : ∀ c ∈ back.head?, c = '\n' := by
    have hstop : (exportEdit v m).stop = m.stop := rfl
    rw [hback, hstop]
    rcases h.head?_behind with e | e <;> rw [e] <;> simp
  obtain ⟨before, hbefore⟩ := firstMarker_front h.front
  obtain ⟨after, hafter⟩ := firstMarker_behind hbehind
  have htwice (r : Option Text) : r.or (r.or after) = r.or after := by cases r <;> rfl
  have htake : t.take m.start = writtenText a := by
    rw [h.start, take_stretch h.cells_eq]
  have hle : m.start ≤ m.stop := Nat.le_add_right ..
  have hnew : t.take m.start ++ (exportReplacement v m.value ++ back) =
      writtenText a ++
        ((newLead v m.value ++ (writtenText m.value.value ++ exportSuffix m.value.tail)) ++
        '\n' :: (newExport m.value ++ back)) := by
    rw [htake, exportReplacement_eq, List.append_assoc, List.cons_append]
  dsimp only [exportEdit]
  rw [hnew, ← Edit.take_append_slice t hle, htake, List.append_assoc (writtenText a), hbefore,
    hbefore, firstMarker_newline, firstMarker_oneLine hdeclared, hafter _ hexported, hafter _ hold,
    hfirst, hsecond, htwice]

theorem firstMarker_splitExports (v : ScriptVersion) (t : Text) :
    firstMarker (splitExports v t).text = firstMarker t := by
  rw [splitExports_text]
  refine Edit.firstMarker_splice (ordered_exportEdits v t) fun e he => ?_
  obtain ⟨m, hm, rfl⟩ := List.mem_map.mp he
  obtain ⟨a, rest, hline⟩ := exportLine_of_mem hm
  exact hline.keepsMarker hm v

end Exports

theorem firstMarker_exceptOldest (fallback : ScriptVersion) {repair : Text → Repaired}
    (h : ∀ t, firstMarker (repair t).text = firstMarker t) (done : Repaired) :
    firstMarker (continueWith done (exceptOldest fallback repair)).text =
      firstMarker done.text := by
  rw [continueWith_text, exceptOldest]
  cases detectVersion done.text fallback with
  | error e => rfl
  | ok v =>
    by_cases hv : v = .v4
    · simp [Except.map, hv]
    · simp [Except.map, hv, h]

theorem firstMarker_splitRepair (fallback : ScriptVersion) (done : Repaired) :
    firstMarker (continueWith done fun t => (detectVersion t fallback).map fun v =>
      splitExports v t).text =
      firstMarker done.text := by
  rw [continueWith_text]
  cases detectVersion done.text fallback with
  | error e => rfl
  | ok v => exact firstMarker_splitExports v done.text

theorem firstMarker_closed (fallback : ScriptVersion) (tables : RenameTables Text) (t : Text) :
    firstMarker (afterRepairs fallback tables 4 t) =
      firstMarker (continueWith ⟨t, []⟩ (addMarker fallback)).text := by
  have htext : afterRepairs fallback tables 4 t = (separateArguments (separateInputs
      (closeBrackets
        (closeLiterals (continueWith ⟨t, []⟩ (addMarker fallback)).text).text).text).text).text :=
        rfl
  rw [htext, firstMarker_separateArguments, firstMarker_separateInputs,
    firstMarker_closeBrackets (unclosedLiterals_closeLiterals _), firstMarker_closeLiterals]

theorem detectVersion_of_firstMarker (fallback : ScriptVersion) {tables : RenameTables Text}
    {t u : Text} (h : firstMarker u = firstMarker (afterRepairs fallback tables 4 t)) :
    detectVersion u fallback = detectVersion t fallback := by
  rw [← detectVersion_addMarker fallback t]
  exact detectVersion_congr (h.trans (firstMarker_closed fallback tables t)) fallback

theorem firstMarker_repairAll (fallback : ScriptVersion) {tables : RenameTables Text}
    (h : PlainTables tables) (t : Text) :
    firstMarker (repairAll fallback tables t).text =
      firstMarker (afterRepairs fallback tables 4 t) := by
  rw [repairAll_eq, foldl_take_six, firstMarker_splitRepair,
    firstMarker_exceptOldest fallback (firstMarker_namespaceBuiltins h),
    firstMarker_exceptOldest fallback (firstMarker_replaceStudy h), afterRepairs]

theorem detectVersion_repairAll (fallback : ScriptVersion) {tables : RenameTables Text}
    (h : PlainTables tables) (t : Text) :
    detectVersion (repairAll fallback tables t).text fallback = detectVersion t fallback :=
  detectVersion_of_firstMarker fallback (firstMarker_repairAll fallback h t)

theorem detectVersion_fix (fallback : ScriptVersion) {tables : RenameTables Text}
    (h : PlainTables tables) (t : Text) :
    detectVersion (fix fallback tables t).script fallback = detectVersion t fallback := by
  rw [fix]
  split
  · rfl
  · exact detectVersion_repairAll fallback h t

end PineTools.Repair
