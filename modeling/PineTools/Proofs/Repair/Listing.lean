import PineTools.Proofs.Diff.Listing
import PineTools.Proofs.Repair.Commas
import PineTools.Proofs.Repair.Comments
import PineTools.Proofs.Repair.Settled
import PineTools.Proofs.Repair.Structure

/-! Listings of fixes. No repair ends the last line of a script that goes on behind its last break,
so the listing of a fix can be carried out exactly if that line stays as it was or has its break. -/
namespace PineTools.Repair

open Text (endsOpen physicalLines)

section Ends

/-- Edits that leave the end of a text alone, or write something open there, leave it open. -/
theorem endsOpen_splice {t : Text} (ht : endsOpen t = true) {offset : Nat} {es : List Edit}
    (h : Edit.Ordered t.length offset es) (hes : ∀ e ∈ es, endsOpen e.replacement = true ∨
      e.stop < t.length)
    (hoffset : offset < t.length ∨ es ≠ []) : endsOpen (Edit.splice t offset es) = true := by
  induction es generalizing offset with
  | nil =>
    have hlt : offset < t.length := hoffset.resolve_right fun h => h rfl
    have hne : t.drop offset ≠ [] := by
      rw [ne_eq, List.drop_eq_nil_iff]
      omega
    rw [← List.take_append_drop offset t, Text.endsOpen_append hne] at ht
    exact ht
  | cons e es ih =>
    obtain ⟨-, -, -, hrest⟩ := h
    obtain ⟨he, hes⟩ := List.forall_mem_cons.mp hes
    have hmore (hlt : e.stop < t.length ∨ es ≠ []) :
        endsOpen (Edit.splice t offset (e :: es)) = true := by
      have hbehind := ih (hrest.weaken (Nat.le_succ _)) hes hlt
      rw [Edit.splice, Text.endsOpen_append (Text.ne_nil_of_endsOpen hbehind), hbehind]
    by_cases hlt : e.stop < t.length ∨ es ≠ []
    · exact hmore hlt
    · obtain ⟨hend, hnil⟩ := not_or.mp hlt
      obtain rfl := Classical.not_not.mp hnil
      have hopen := he.resolve_right hend
      rw [Edit.splice, Edit.splice, List.drop_eq_nil_of_le (Nat.le_of_not_lt hend), List.append_nil,
        Text.endsOpen_append (Text.ne_nil_of_endsOpen hopen), hopen]

theorem endsOpen_edits {t : Text} (ht : endsOpen t = true) {es : List Edit}
    (h : Edit.Ordered t.length 0 es) (hes : ∀ e ∈ es, endsOpen e.replacement = true ∨
      e.stop < t.length) : endsOpen (Edit.splice t 0 es) = true :=
  endsOpen_splice ht h hes (.inl (List.length_pos_iff.mpr (Text.ne_nil_of_endsOpen ht)))

theorem IsName.endsOpen {name : Text} (h : IsName name) : endsOpen name = true :=
  Text.endsOpen_of_unbroken h.1 fun c hc => Text.not_break_of_wordOrDot (h.2 c hc)

end Ends

section Repairs

variable {t : Text} (ht : endsOpen t = true)

include ht

theorem endsOpen_addMarker (fallback : ScriptVersion) {r : Repaired}
    (h : addMarker fallback t = .ok r) :
    endsOpen r.text = true := by
  rw [addMarker] at h
  cases hfound : findMarker t with
  | error e => rw [hfound] at h; cases h
  | ok found =>
    rw [hfound] at h
    cases found with
    | some found => cases h; exact ht
    | none =>
      cases h
      change endsOpen (fallback.marker ++ ('\n' :: t)) = true
      rw [← List.singleton_append, ← List.append_assoc,
        Text.endsOpen_append (Text.ne_nil_of_endsOpen ht), ht]

omit ht in
theorem endsOpen_closingOf (quote : Quote) (line : Text) :
    endsOpen (line ++ closingOf quote line) = true := by
  rw [closingOf]
  split <;> rw [Text.endsOpen_append (by simp)] <;> cases quote <;> decide

omit ht in
theorem closeLines_ne_nil (n : Nat) (us : List UnclosedLiteral) {ls : List Text} (h : ls ≠ []) :
    closeLines n us ls ≠ [] := by
  cases ls with
  | nil => exact absurd rfl h
  | cons l ls =>
    cases us with
    | nil => exact h
    | cons u us =>
      rw [closeLines]
      split <;> exact List.cons_ne_nil _ _

omit ht in
theorem endsOpen_closeLines (n : Nat) (us : List UnclosedLiteral) {ls : List Text}
    (h : endsOpen (Text.unlines ls) = true) :
    endsOpen (Text.unlines (closeLines n us ls)) = true := by
  induction ls generalizing n us with
  | nil => exact absurd h (by decide)
  | cons l ls ih =>
    cases us with
    | nil => exact h
    | cons u us =>
      rw [closeLines]
      -- A line is the last one, or the end is the end of what follows.
      have hlast {l' : Text} (us' : List UnclosedLiteral) (hl : ls = [] → endsOpen l' = true) :
          endsOpen (Text.unlines (l' :: closeLines (n + 1) us' ls)) = true := by
        cases hls : ls with
        | nil =>
          have hnil : closeLines (n + 1) us' [] = [] := by cases us' <;> rfl
          rw [hnil]
          exact hl hls
        | cons next more =>
          rw [← hls]
          have hne : ls ≠ [] := by
            rw [hls]
            exact List.cons_ne_nil next more
          have hbehind : endsOpen (Text.unlines ls) = true := by
            rw [Text.unlines_cons hne, ← List.singleton_append, ← List.append_assoc] at h
            by_cases hempty : Text.unlines ls = []
            · rw [hempty, List.append_nil, Text.endsOpen_append (by simp)] at h
              cases h
            · rwa [Text.endsOpen_append hempty] at h
          have hclosed := ih (n + 1) us' hbehind
          rw [Text.unlines_cons (closeLines_ne_nil _ _ hne), ← List.singleton_append,
            ← List.append_assoc, Text.endsOpen_append (Text.ne_nil_of_endsOpen hclosed), hclosed]
      split
      · exact hlast us fun _ => endsOpen_closingOf u.quote l
      · refine hlast (u :: us) ?_
        rintro rfl
        exact h

theorem endsOpen_closeLiterals : endsOpen (closeLiterals t).text = true := by
  rw [closeLiterals]
  split
  · exact ht
  · exact endsOpen_closeLines 1 _ (by rwa [Text.unlines_lines])

theorem endsOpen_closeBrackets : endsOpen (closeBrackets t).text = true := by
  by_cases hb : (matchBrackets t).unclosed = []
  · rwa [closeBrackets_of_closed hb]
  rw [closeBrackets_text t hb]
  by_cases hend : t.drop (endOfCode t) = []
  · have hclosers : missingClosers t ≠ [] := by
      rw [missingClosers, ne_eq, List.map_eq_nil_iff, List.reverse_eq_nil_iff]
      exact hb
    rw [hend, List.append_nil, Text.endsOpen_append hclosers]
    refine Text.endsOpen_of_unbroken hclosers fun c hc => ?_
    obtain ⟨o, -, rfl⟩ := List.mem_map.mp hc
    cases o.kind <;> decide
  · rw [← List.append_assoc, Text.endsOpen_append hend]
    rwa [← List.take_append_drop (endOfCode t) t, Text.endsOpen_append hend] at ht

theorem endsOpen_insertMissingCommas : endsOpen (insertMissingCommas t).text = true := by
  have hinputs : endsOpen (separateInputs t).text = true := by
    rw [separateInputs_text]
    refine endsOpen_edits ht (ordered_inputEdits t) fun e he => .inl ?_
    obtain ⟨m, -, rfl⟩ := List.mem_map.mp he
    rfl
  change endsOpen (separateArguments (separateInputs t).text).text = true
  generalize (separateInputs t).text = t' at hinputs
  rw [separateArguments_text]
  refine endsOpen_edits hinputs (ordered_callEdits t') fun e he => .inr ?_
  obtain ⟨call, hcall, rfl⟩ := List.mem_map.mp he
  obtain ⟨a, args, rest, x, y, hargs⟩ := callArguments_of_mem hcall
  -- The bracket that closes the call stands behind its arguments.
  have hbehind := congrArg List.length hargs.drop_stop
  rw [List.length_drop, List.length_cons] at hbehind
  change call.argsStop < t'.length
  omega

theorem endsOpen_renameCalls {name new : Text} (h : IsName name) (hnew : IsName new) :
    endsOpen (renameCalls name new t).1 = true := by
  rw [renameCalls_eq h]
  refine endsOpen_edits ht (ordered_renameEdits h new t) fun e he => .inl ?_
  obtain ⟨m, -, rfl⟩ := List.mem_map.mp he
  exact hnew.endsOpen

omit ht in
theorem keptByRenames_endsOpen :
    KeptByRenames fun u => endsOpen u = true :=
    fun _ _ _ h hnew hu => endsOpen_renameCalls hu h hnew

theorem endsOpen_replaceStudy {tables : RenameTables Text} (h : PlainTables tables) :
    endsOpen (replaceStudy tables t).text = true := keptByRenames_endsOpen.replaceStudy h ht

theorem endsOpen_namespaceBuiltins {tables : RenameTables Text} (h : PlainTables tables) :
    endsOpen (namespaceBuiltins tables t).text = true :=
  keptByRenames_endsOpen.namespaceBuiltins h ht

omit ht in
/-- The name of an exported variable is no literal: a blank or the sign of equality stands behind
it. -/
theorem unbroken_exportName {m : Match Cell (ExportedVariable Cell)}
    (hm : m ∈ exportedVariables t) :
    ∃ init x, m.value.name = init ++ [x] ∧ Text.isLineBreak x.char = false := by
  obtain ⟨a, rest, hline⟩ := exportLine_of_mem hm
  obtain ⟨head, hhead, hlead, -⟩ := exportLead_of_mem hm
  obtain ⟨keyword, blanks₁, blanks₂, blanks₃, equals, blanks₄, rfl, -, hequals, -, -, hblank⟩ :=
    hhead.parts
  obtain ⟨hne, hword⟩ := hhead.name
  obtain hnil | ⟨init, x, hname⟩ := List.eq_nil_or_concat m.value.name
  · exact absurd hnil hne
  rw [List.concat_eq_append] at hname
  refine ⟨init, x, hname, ?_⟩
  have hx : Text.isWord x.masked = true := hword x (by rw [hname]; simp)
  obtain ⟨y, behind, hbehind, hy⟩ : ∃ y behind, blanks₃ ++ equals :: blanks₄ = y :: behind ∧
      (Text.isBlank y.masked = true ∨ y.masked = '=') := by
    cases blanks₃ with
    | nil => exact ⟨equals, blanks₄, rfl, .inr hequals⟩
    | cons y more => exact ⟨y, _, rfl, .inl (hblank y (by simp))⟩
  have hcells : cellsFrom .start t =
    (a ++ (m.value.indent ++ (keyword ++ (blanks₁ ++ (m.value.kind ++ (blanks₂ ++ init)))))) ++
      x :: (y :: behind ++ ((m.value.value ++ m.value.tail) ++ rest)) := by
    rw [← cells, hline.cells_eq, hlead, hbehind, hname]
    simp only [List.append_assoc, List.cons_append, List.nil_append]
  have hxmem : x ∈ cellsFrom .start t := by
    rw [hcells]
    simp
  have hymem : y ∈ cellsFrom .start t := by
    rw [hcells]
    simp
  obtain ⟨hyn, hyliteral⟩ : y.char ≠ '\n' ∧ y.region.isLiteral = false := by
    obtain hy | hy := hy
    · exact region_of_blank hymem hy
    · obtain ⟨hregion, hchar⟩ := code_of_masked hymem (by rw [hy]; decide) (by rw [hy]; decide)
        (by rw [hy]; decide)
        (fun q => by rw [hy]; cases q <;> decide)
      rw [hchar, hy, hregion]
      exact ⟨by decide, rfl⟩
  obtain ⟨-, hregion | ⟨hliteral, hdelimiter⟩⟩ := code_or_inside hxmem (isWordOrDot_of_isWord hx)
  · rw [← Cell.masked_of_code hregion]
    exact Text.not_break_of_word hx
  · have := (inside_at hcells hliteral hdelimiter).2.2 y rfl hyn
    rw [hyliteral] at this
    cases this

theorem endsOpen_splitExports (v : ScriptVersion) : endsOpen (splitExports v t).text = true := by
  rw [splitExports_text]
  refine endsOpen_edits ht (ordered_exportEdits v t) fun e he => .inl ?_
  obtain ⟨m, hm, rfl⟩ := List.mem_map.mp he
  obtain ⟨init, x, hname, hx⟩ := unbroken_exportName hm
  change endsOpen (exportReplacement v m.value) = true
  have hend : writtenText m.value.name = writtenText init ++ [x.char] := by
    rw [hname, writtenText_append]
    rfl
  have hlast : endsOpen [x.char] = true :=
    Text.endsOpen_of_unbroken (List.cons_ne_nil _ _) (by simpa [Text.Unbroken] using hx)
  rw [exportReplacement_eq, newExport, hend, ← List.append_assoc, ← List.append_assoc,
    ← List.cons_append, ← List.append_assoc, ← List.append_assoc _ (writtenText init),
    Text.endsOpen_append (List.cons_ne_nil x.char []), hlast]

end Repairs

section Fixing

variable (fallback : ScriptVersion) {tables : RenameTables Text} (h : PlainTables tables)

theorem endsOpen_continueWith {repair : Remedy}
    (hrepair : ∀ {t : Text} {r : Repaired}, endsOpen t = true → repair t = .ok r → endsOpen r.text =
      true) {done : Repaired}
    (hdone : endsOpen done.text = true) : endsOpen (continueWith done repair).text = true := by
  rw [continueWith_text]
  cases hr : repair done.text with
  | ok r => exact hrepair hdone hr
  | error e => exact hdone

theorem endsOpen_exceptOldest {repair : Text → Repaired} (hrepair : ∀ {t : Text}, endsOpen t =
    true → endsOpen (repair t).text = true) {t : Text} {r : Repaired} (ht : endsOpen t = true)
      (hr : exceptOldest fallback repair t = .ok r) : endsOpen r.text = true := by
  rw [exceptOldest] at hr
  cases hv : detectVersion t fallback with
  | error e => rw [hv] at hr; cases hr
  | ok v =>
    rw [hv] at hr
    cases hr
    dsimp only
    split
    · exact ht
    · exact hrepair ht

include h in
theorem endsOpen_repairAll {t : Text} (ht : endsOpen t = true) :
    endsOpen (repairAll fallback tables t).text = true := by
  have hrepairs : ∀ repair ∈ repairs fallback tables, ∀ {t : Text} {r : Repaired}, endsOpen t =
    true → repair t = .ok r →
      endsOpen r.text = true := by
    simp only [repairs, List.forall_mem_cons]
    refine ⟨fun ht => endsOpen_addMarker ht fallback, ?_, ?_, ?_, fun ht =>
      endsOpen_exceptOldest fallback (endsOpen_replaceStudy · h) ht, fun ht =>
        endsOpen_exceptOldest fallback (endsOpen_namespaceBuiltins · h) ht, ?_, by simp⟩
    · rintro t r ht ⟨⟩
      exact endsOpen_closeLiterals ht
    · rintro t r ht ⟨⟩
      exact endsOpen_closeBrackets ht
    · rintro t r ht ⟨⟩
      exact endsOpen_insertMissingCommas ht
    · intro t r ht hr
      cases hv : detectVersion t fallback with
      | error e => rw [hv] at hr; cases hr
      | ok v =>
        rw [hv] at hr
        cases hr
        exact endsOpen_splitExports ht v
  rw [repairAll]
  generalize repairs fallback tables = remedies at hrepairs
  suffices ∀ done : Repaired, endsOpen done.text = true →
    endsOpen (remedies.foldl continueWith done).text = true from this ⟨t, []⟩ ht
  induction remedies with
  | nil => exact fun done hdone => hdone
  | cons repair remedies ih =>
    intro done hdone
    obtain ⟨hrepair, hrest⟩ := List.forall_mem_cons.mp hrepairs
    exact ih hrest _ (endsOpen_continueWith hrepair hdone)

theorem fix_of_fixed {fallback : ScriptVersion} {tables : RenameTables Text} {t : Text}
    (hfixed : (fix fallback tables t).fixed = true) :
    (fix fallback tables t).script = (repairAll fallback tables t).text ∧
      (fix fallback tables t).diff = some (listing t (repairAll fallback tables t).text) := by
  rw [fix] at hfixed ⊢
  split at hfixed
  case isTrue => cases hfixed
  case isFalse hnone =>
    rw [if_neg hnone]
    exact ⟨rfl, rfl⟩

include h in
/-- The listing of a fix makes the fixed script of the script, unless the script goes on behind its
last line break and the line there is changed: then it is no patch of the script. Lines are the
physical ones here, for the listing and for its reader. One who breaks lines at newlines only does
not find the lines of a script that has other breaks. -/
theorem fix_diff_applies (t : Text) (hfixed : (fix fallback tables t).fixed = true) :
    ∃ patch, (fix fallback tables t).diff = some patch ∧ Diff.applyPatch patch t =
      if endsOpen t = true ∧ (physicalLines (fix fallback tables t).script).getLast? ≠
        (physicalLines t).getLast? then none
      else some (fix fallback tables t).script := by
  have hnames : Text.Unbroken "original".toList ∧ Text.Unbroken "fixed".toList := by decide
  have hends := @endsOpen_repairAll fallback tables h t
  obtain ⟨hscript, hdiff⟩ := fix_of_fixed hfixed
  refine ⟨_, hdiff, ?_⟩
  rw [hscript, listing]
  generalize (repairAll fallback tables t).text = r at hends
  by_cases htorn : endsOpen t = true ∧ (physicalLines r).getLast? ≠ (physicalLines t).getLast?
  · rw [if_pos htorn]
    exact Diff.applyPatch_unified_eq_none hnames.1 hnames.2 htorn.1 (hends htorn.1) htorn.2
  · rw [if_neg htorn]
    refine Diff.applyPatch_unified hnames.1 hnames.2 fun hopen => ?_
    exact Classical.byContradiction fun hchanged => htorn ⟨hopen, hchanged⟩

/-- A script that ends with its line break. -/
theorem fix_diff_applies_ended :
    let t := "//@version=5\nf(a b)\n".toList
    (fix .v5 RenameTables.shipped t).fixed = true ∧ endsOpen t = false ∧
      ∃ patch, (fix .v5 RenameTables.shipped t).diff = some patch ∧
        Diff.applyPatch patch t = some (fix .v5 RenameTables.shipped t).script := by
  intro t
  have hfixed : (fix .v5 RenameTables.shipped t).fixed = true := by
    rw [fix, repairAll, repairs, namespaceBuiltins_shipped]
    decide +kernel
  have hended : endsOpen t = false := by decide
  obtain ⟨patch, hdiff, happly⟩ := fix_diff_applies .v5 plainTables_shipped t hfixed
  rw [hended, if_neg fun h => Bool.false_ne_true h.1] at happly
  exact ⟨hfixed, hended, patch, hdiff, happly⟩

/-- The commas that the fix puts into the last line tear the line. -/
theorem fix_diff_torn :
    let t := "//@version=5\nf(a b)".toList
    let r := fix .v5 RenameTables.shipped t
    r.fixed = true ∧ r.script = "//@version=5\nf(a, b)".toList ∧
      r.diff = some
        "--- original\n+++ fixed\n@@ -1,2 +1,2 @@\n //@version=5\n-f(a b)+f(a, b)".toList ∧
        r.diff.bind (Diff.applyPatch · t) ≠ some r.script := by
  intro t
  rw [fix, repairAll, repairs, namespaceBuiltins_shipped]
  decide +kernel

end Fixing

end PineTools.Repair
