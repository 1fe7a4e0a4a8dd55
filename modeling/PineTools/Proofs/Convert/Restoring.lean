import PineTools.Proofs.Convert.Statements

/-! A script of the middle version that is converted to the newest and back. Every line comes back
by itself, the marker is written over and over, and the import that was added is the first one that
is found. So the script is what it was, if nothing in it looked like the work of the first step
before. -/
namespace PineTools.Convert

open Mode

variable {tables : RenameTables Text} {s t : Text} {before after : List Text}

theorem oneLine_of_lines {l : Text} (e : Text.lines t = before ++ l :: after) :
    (∀ l' ∈ before, Text.OneLine l') ∧ ∀ l' ∈ after, Text.OneLine l' :=
  ⟨fun _ h => Text.oneLine_of_mem_lines (t := t) (e ▸ List.mem_append_left _ h),
    fun _ h => Text.oneLine_of_mem_lines (t := t)
      (e ▸ List.mem_append_right before (List.mem_cons_of_mem l h))⟩

section Lines

/-- The name is given a new value somewhere in the script. -/
def isReassigned (t : Text) (name : List Cell) : Bool :=
  (reassignment (writtenText name) : Pattern Char Unit).occursIn (mask t)

/-- The step to the newest version, up to the import, line by line. -/
theorem lines_forward (t : Text) :
    Text.lines (addMethod (replaceKeyword "varip" "var" (freezeVariables t))) =
    rewriteLines (forwardLine (isReassigned t)) false (Text.lines t) := by
  have hfreeze := (rewrites_freezeVariables (isReassigned t)).lines_substitute t
  have hvarip := (rewrites_replaceKeyword isName_varip isName_var).lines_substitute
    (freezeVariables t)
  have hmethod :=
    rewrites_addMethod.lines_substitute (replaceKeyword "varip" "var" (freezeVariables t))
  have hone : ∀ l ∈ Text.lines t, Text.OneLine l := fun l hl => Text.oneLine_of_mem_lines hl
  have hkeeps := keeps_freezeLine (isReassigned t)
  have hvaripkeeps := keeps_keywordLine isName_varip isName_var
  calc Text.lines (addMethod (replaceKeyword "varip" "var" (freezeVariables t)))
      = rewriteLines markLine false (rewriteLines (keywordLine "varip" "var") false
          (rewriteLines (freezeLine (isReassigned t)) false (Text.lines t))) :=
        hmethod.trans (congrArg (rewriteLines markLine false) (hvarip.trans
          (congrArg (rewriteLines (keywordLine "varip" "var") false) hfreeze)))
    _ = rewriteLines (forwardLine (isReassigned t)) false (Text.lines t) := by
      rw [hkeeps.rewriteLines_rewriteLines _ hone,
        (hkeeps.comp hvaripkeeps).rewriteLines_rewriteLines _ hone]
      rfl

theorem lines_backward (t : Text) : Text.lines (dropMethod (replaceKeyword "let" "var" t)) =
    rewriteLines backwardLine false (Text.lines t) := by
  have hlet := (rewrites_replaceKeyword isName_let isName_var).lines_substitute t
  have hmethod := rewrites_dropMethod.lines_substitute (replaceKeyword "let" "var" t)
  have hone : ∀ l ∈ Text.lines t, Text.OneLine l := fun l hl => Text.oneLine_of_mem_lines hl
  have hkeeps := keeps_keywordLine isName_let isName_var
  calc Text.lines (dropMethod (replaceKeyword "let" "var" t))
      = rewriteLines unmarkLine false
        (rewriteLines (keywordLine "let" "var") false (Text.lines t)) :=
        hmethod.trans (congrArg (rewriteLines unmarkLine false) hlet)
    _ = rewriteLines backwardLine false (Text.lines t) := by
      rw [hkeeps.rewriteLines_rewriteLines _ hone]
      rfl

theorem keepsMarkers_forwardLine (reassigned : List Cell → Bool) :
    KeepsMarkers (forwardLine reassigned) := by
  have hfreeze : KeepsMarkers (freezeLine reassigned) :=
    (rewrites_freezeVariables reassigned).keepsMarkers
  have hvarip : KeepsMarkers (keywordLine "varip" "var") :=
    (rewrites_replaceKeyword isName_varip isName_var).keepsMarkers
  have hmark : KeepsMarkers markLine := rewrites_addMethod.keepsMarkers
  have hkeeps := keeps_freezeLine reassigned
  exact (hfreeze.comp hvarip hkeeps).comp hmark
    (hkeeps.comp (keeps_keywordLine isName_varip isName_var))

theorem keepsMarkers_backwardLine : KeepsMarkers backwardLine := by
  have hlet : KeepsMarkers (keywordLine "let" "var") :=
    (rewrites_replaceKeyword isName_let isName_var).keepsMarkers
  have hmark : KeepsMarkers unmarkLine := rewrites_dropMethod.keepsMarkers
  exact hlet.comp hmark (keeps_keywordLine isName_let isName_var)

theorem rewriteLines_back {inComment : Bool} {ls : List Text} (hone : ∀ l ∈ ls, Text.OneLine l)
    (h : ∀ line ∈ readLines (.ofLine inComment) ls, Restorable line)
    (reassigned : List Cell → Bool) :
    rewriteLines backwardLine inComment
      (rewriteLines (forwardLine reassigned) inComment ls) = ls := by
  rw [(keeps_forwardLine reassigned).rewriteLines_rewriteLines _ hone]
  exact rewriteLines_eq_self fun line hline =>
    (h line hline).backward_forward (isRead_of_mem_readLines hone hline).1 reassigned

end Lines

/-- The default import is a line on which it is read, and which the steps keep. -/
structure PlainImport (tables : RenameTables Text) : Prop where
  oneLine : Text.OneLine tables.defaultImport
  reads : readsImport tables (readLine false tables.defaultImport) = true
  leaves : (readLine false tables.defaultImport).leaves tables.defaultImport = false
  restorable : Restorable (readLine false tables.defaultImport)

/-- Without an import that reads as the default one nothing is dropped. -/
theorem dropImport_of_none (h : ∀ line ∈ scriptLines t, readsImport tables line = false) :
    dropImport tables t = t := by
  rw [dropImport_eq, List.findIdx?_eq_none_iff.mpr h]

theorem lines_dropImport (himport : PlainImport tables) (v : ScriptVersion)
    (e : Text.lines t = before ++ v.marker :: (tables.defaultImport :: after))
    (hstart : leavesAll false before = false) (h : ∀ line ∈ readLines (.ofLine false) before,
      readsImport tables line = false) :
    Text.lines (dropImport tables t) = before ++ v.marker :: after := by
  have hsplit : before ++ v.marker :: (tables.defaultImport :: after) = (before ++ [v.marker]) ++
      tables.defaultImport :: after := by
    rw [List.append_assoc, List.singleton_append]
  have hfind : (scriptLines t).findIdx? (readsImport tables) =
      some (before ++ [v.marker]).length := by
    have hmarker : readLines (.ofLine (leavesAll false before)) [v.marker] =
        [readLine false v.marker] := by rw [hstart]; rfl
    have hbefore : (readLines (.ofLine false) (before ++ [v.marker])).findIdx?
        (readsImport tables) = none := by
      rw [List.findIdx?_eq_none_iff, readLines_append, hmarker, List.forall_mem_append,
        List.forall_mem_singleton]
      exact ⟨h, readsImport_marker tables v false⟩
    have hstate : leavesAll false (before ++ [v.marker]) = false := by
      rw [leavesAll_append, hstart]
      exact (readLine_marker v false).2
    rw [scriptLines_readLines, e, hsplit, readLines_append, hstate, readLines_cons,
      List.findIdx?_append, hbefore, Option.none_or, List.findIdx?_cons, himport.reads, if_pos rfl,
      Option.map_some, readLines_length, Nat.zero_add]
  have hget : (Text.lines t)[(before ++ [v.marker]).length]? = some tables.defaultImport := by
    rw [e, hsplit, List.getElem?_append_right (Nat.le_refl _), Nat.sub_self]
    rfl
  have herase : (Text.lines t).eraseIdx (before ++ [v.marker]).length = before ++
      v.marker :: after := by
    rw [e, hsplit, List.eraseIdx_append_of_length_le (Nat.le_refl _), Nat.sub_self,
      List.eraseIdx_cons_zero, List.append_assoc, List.singleton_append]
  have hone : ∀ l ∈ before ++ v.marker :: after, Text.OneLine l := fun l hl =>
    Text.oneLine_of_mem_lines (t := t) (herase ▸ hl |> List.mem_of_mem_eraseIdx)
  rw [dropImport_eq, hfind]
  dsimp only
  rw [hget, Option.map_some, if_pos (beq_self_eq_true _), herase, Text.lines_unlines (by simp) hone]

theorem lines_v5ToV6 (himport : PlainImport tables)
    (e : Text.lines s = before ++ ScriptVersion.v5.marker :: after)
    (hbefore : ∀ l ∈ before, isMarkerLine l = false) (hstart : leavesAll false before = false) :
    ∃ reassigned added, (added = [] ∨ added = [tables.defaultImport]) ∧
    Text.lines (Step.v5ToV6.apply tables s) =
      rewriteLines (forwardLine reassigned) false before ++
        ScriptVersion.v6.marker ::
          (added ++ rewriteLines (forwardLine reassigned) false after) := by
  obtain ⟨hone, -⟩ := oneLine_of_lines e
  have hset := lines_setMarker_at e hbefore (isMarkerLine_marker .v5) .v6
  refine ⟨isReassigned (setMarker .v6 s), ?_⟩
  have hforward := lines_forward (setMarker .v6 s)
  have hkeeps := keepsMarkers_forwardLine (isReassigned (setMarker .v6 s))
  rw [hset, hkeeps.rewriteLines_marker, hstart] at hforward
  rcases lines_addImport tables hforward (hkeeps.not_marker_lines hone hbefore)
    (isMarkerLine_marker .v6) with e' | e'
  · exact ⟨[], .inl rfl, (congrArg Text.lines e').trans hforward⟩
  · refine ⟨[tables.defaultImport], .inr rfl, e'.trans ?_⟩
    rw [Text.lines_of_oneLine himport.oneLine]

theorem lines_v6ToV5 (himport : PlainImport tables) {added : List Text}
    (hadded : added = [] ∨ added = [tables.defaultImport]) (hbefore : ∀ l ∈ before, isMarkerLine l =
      false) (hone : ∀ l ∈ before, Text.OneLine l) (hone' : ∀ l ∈ after, Text.OneLine l)
    (hstart : leavesAll false before = false) (h : ∀ line ∈ readLines (.ofLine false) before,
      Restorable line)
    (h' : ∀ line ∈ readLines (.ofLine false) after, Restorable line) {reassigned : List Cell → Bool}
    (e : Text.lines t = rewriteLines (forwardLine reassigned) false before ++
        ScriptVersion.v6.marker :: (added ++ rewriteLines (forwardLine reassigned) false after)) :
    Text.lines (dropMethod (replaceKeyword "let" "var" (setMarker .v5 t))) =
      before ++ ScriptVersion.v5.marker :: (added ++ after) := by
  have hadded' :
      rewriteLines backwardLine false (added ++ rewriteLines (forwardLine reassigned) false after) =
      added ++ after := by
    rcases hadded with rfl | rfl
    · exact rewriteLines_back hone' h' reassigned
    · have himported :=
        himport.restorable.backward (ScriptLine.isRead_readLine false himport.oneLine)
      rw [ScriptLine.readLine_text] at himported
      rw [List.singleton_append, rewriteLines_cons, himported, himport.leaves,
        rewriteLines_back hone' h' reassigned]
      rfl
  have hnomarker := (keepsMarkers_forwardLine reassigned).not_marker_lines hone hbefore
  have hleaves :=
    @KeepsReading.leavesAll_rewriteLines _ (keeps_forwardLine reassigned) false before hone
  rw [lines_backward, lines_setMarker_at e hnomarker (isMarkerLine_marker .v6),
    keepsMarkers_backwardLine.rewriteLines_marker, rewriteLines_back hone h, hleaves,
    hstart, hadded']

theorem apply_v6ToV5 (tables : RenameTables Text) (t : Text) :
    Step.v6ToV5.apply tables t =
      dropImport tables (dropMethod (replaceKeyword "let" "var" (setMarker .v5 t))) := rfl

/-- Both steps between the newest versions, one after the other. -/
theorem apply_v6ToV5_v5ToV6 (himport : PlainImport tables)
    (e : Text.lines s = before ++ ScriptVersion.v5.marker :: after)
    (hbefore : ∀ l ∈ before, isMarkerLine l = false) (hstart : leavesAll false before = false)
    (h : ∀ line ∈ scriptLines s, Restorable line ∧ readsImport tables line = false) :
    Step.v6ToV5.apply tables (Step.v5ToV6.apply tables s) = s := by
  obtain ⟨hone, hone'⟩ := oneLine_of_lines e
  have hlines : scriptLines s = readLines (.ofLine false) before ++
      readLine false ScriptVersion.v5.marker :: readLines (.ofLine false) after := by
    rw [scriptLines_readLines, e, readLines_append, hstart, readLines_cons,
      (readLine_marker .v5 false).2]
  have hfirst : ∀ line ∈ readLines (.ofLine false) before, Restorable line ∧
      readsImport tables line = false :=
    fun line hline => h line (hlines ▸ List.mem_append_left _ hline)
  have hlast : ∀ line ∈ readLines (.ofLine false) after, Restorable line ∧
      readsImport tables line = false :=
    fun line hline => h line (hlines ▸ List.mem_append_right _ (List.mem_cons_of_mem _ hline))
  obtain ⟨reassigned, added, hadded, hforward⟩ := lines_v5ToV6 himport e hbefore hstart
  have hback :=
    lines_v6ToV5 himport hadded hbefore hone hone' hstart (fun line hline => (hfirst line hline).1)
    (fun line hline => (hlast line hline).1) hforward
  refine eq_of_lines ?_
  rw [apply_v6ToV5]
  rcases hadded with rfl | rfl
  · rw [List.nil_append, ← e] at hback
    rw [eq_of_lines hback, dropImport_of_none fun line hline => (h line hline).2]
  · rw [List.singleton_append] at hback
    rw [lines_dropImport himport .v5 hback hstart fun line hline => (hfirst line hline).2, e]

theorem around_marker {line : ScriptLine}
    (hfind : (scriptLines s).find? (fun line => isMarkerLine line.text) = some line) :
    ∃ before after, Text.lines s = before ++ line.text :: after ∧
    (∀ l ∈ before, isMarkerLine l = false) ∧
      isMarkerLine line.text = true ∧ leavesAll false before = line.inComment := by
  obtain ⟨hmarker, before, after, hsplit, hbefore⟩ := List.find?_eq_some_iff_append.mp hfind
  have hlines : Text.lines s = before.map ScriptLine.text ++ line.text ::
      after.map ScriptLine.text := by
    rw [← readLines_texts false (Text.lines s), ← scriptLines_readLines, hsplit, List.map_append,
      List.map_cons]
  refine ⟨before.map ScriptLine.text, after.map ScriptLine.text, hlines, List.forall_mem_map.mpr
    fun l hl => ?_, hmarker, ?_⟩
  · exact Bool.not_eq_true' _ |>.mp (hbefore l hl)
  · rw [scriptLines_readLines, hlines, readLines_append, readLines_cons] at hsplit
    have hlen : (readLines (.ofLine false) (before.map ScriptLine.text)).length =
        before.length := by
      rw [readLines_length, List.length_map]
    have hline := congrArg ScriptLine.inComment (List.cons.inj (List.append_inj hsplit hlen).2).1
    rwa [ScriptLine.readLine_inComment] at hline

/-- A script of the middle version in which nothing looks like the work of the step to the newest
version, and nothing is lost in the step back: its first marker stands outside comments, no line
begins with `let` or `varip`, no function is marked as a method, and the default import is not
there. -/
structure Reversible (tables : RenameTables Text) (s : Text) : Prop where
  marker : ∃ line, (scriptLines s).find? (fun line => isMarkerLine line.text) = some line ∧
    line.text = ScriptVersion.v5.marker ∧ line.inComment = false
  noLet : (leadingKeyword "let" : Pattern Cell (LeadingKeyword Cell)).occursIn (cells s) = false
  noVarip : (leadingKeyword "varip" : Pattern Cell (LeadingKeyword Cell)).occursIn (cells s) = false
  noMethod : ∀ m ∈ (functionDefinition : Pattern Cell (FunctionDefinition Cell)).findAll (cells s),
    m.value.method = none
  noImport : ∀ m ∈ (importStatement : Pattern Cell Unit).findAll (cells s),
    Text.strip (writtenText m.glyphs) ≠ Text.strip tables.defaultImport

namespace Reversible

theorem restorable (h : Reversible tables s) :
    ∀ line ∈ scriptLines s, Restorable line ∧ readsImport tables line = false := by
  intro line hline
  have hmem : line.cells ∈ cutLines (cells s) := cutLines_scriptLines s ▸ List.mem_map_of_mem hline
  have hkeyword {w : String} (hw : Repair.IsName w.toList)
      (hnone : (leadingKeyword w : Pattern Cell (LeadingKeyword Cell)).occursIn (cells s) = false) :
      leadingKeyword w none line.cells = none := by
    have hlineWise := @lineWise_leadingKeyword Cell _ w hw.1 fun k =>
      (not_blank_of_isWordOrDot (hw.2 _ k)).2 rfl
    refine Option.eq_none_iff_forall_ne_some.mpr fun ⟨v, rest⟩ e => ?_
    refine hlineWise.forall_front (Q := fun _ => False) (fun m hm => ?_) hmem e
    rw [Pattern.occursIn, Pattern.find?, Option.isSome_eq_false_iff, Option.isNone_iff_eq_none,
      List.head?_eq_none_iff] at hnone
    rw [hnone] at hm
    exact List.not_mem_nil hm
  refine ⟨⟨hkeyword isName_let h.noLet, hkeyword isName_varip h.noVarip, fun d rest e => ?_⟩, ?_⟩
  · exact lineWise_functionDefinition.forall_front (Q := fun d => d.method = none) h.noMethod hmem e
  · rw [readsImport, List.any_eq_false]
    intro m hm e
    have hlines := lineWise_importStatement.forall_findAll_iff
      (fun gs _ => Text.strip (writtenText gs) ≠ Text.strip tables.defaultImport) (cells s)
    exact hlines.mp h.noImport line.cells hmem m hm (beq_iff_eq.mp e)

theorem around_marker (h : Reversible tables s) :
    ∃ before after, Text.lines s = before ++ ScriptVersion.v5.marker :: after ∧
    (∀ l ∈ before, isMarkerLine l = false) ∧ leavesAll false before = false := by
  obtain ⟨line, hfind, htext, hcomment⟩ := h.marker
  obtain ⟨before, after, hlines, hbefore, -, hopen⟩ := Convert.around_marker hfind
  exact ⟨before, after, htext ▸ hlines, hbefore, hopen.trans hcomment⟩

end Reversible

theorem plainImport_shipped : PlainImport .shipped := by
  refine ⟨by decide, by decide +kernel, by decide +kernel, ⟨by
    decide +kernel, by decide +kernel, fun d rest e => ?_⟩⟩
  have : functionDefinition none (readLine false RenameTables.shipped.defaultImport).cells =
      none := by decide +kernel
  rw [this] at e
  cases e

/-- Such a script comes back from the newest version. -/
theorem convert_restores_middle (fallback : ScriptVersion) {s : Text} (h : Reversible .shipped s)
    {newer older : Json} (hnewer : ScriptVersion.parse newer = .ok .v6)
    (holder : ScriptVersion.parse older = .ok .v5) :
    ((convert fallback .shipped s newer).bind fun r => convert fallback .shipped r older) = .ok
      s := by
  obtain ⟨before, after, e, hbefore, hstart⟩ := h.around_marker
  have hmarked : Marked .v5 s := ⟨before, after, e, hbefore, isMarkerLine_marker .v5⟩
  exact convert_there_and_back namesOnly_shipped (hmarked.detectVersion fallback) hnewer
    holder rfl rfl
    (apply_v6ToV5_v5ToV6 plainImport_shipped e hbefore hstart h.restorable)

/-- A variable, and a function with the name of a keyword. -/
theorem convert_restores_middle_script :
    ((convert .v6 .shipped "//@version=5\nvar a = 1\nlet(y) => y".toList (.int 6)).bind
      fun r => convert .v6 .shipped r (.int 5)) =
        .ok "//@version=5\nvar a = 1\nlet(y) => y".toList := by
  refine convert_restores_middle .v6 ⟨?_, ?_, ?_, ?_, ?_⟩ ?_ ?_
  · exact ⟨Option.get _ (by decide +kernel), (Option.some_get _).symm, by
      decide +kernel, by decide +kernel⟩
  · decide +kernel
  · decide +kernel
  · decide +kernel
  · decide +kernel
  · decide
  · decide

end PineTools.Convert
