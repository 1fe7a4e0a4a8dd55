import PineTools.Proofs.Convert.Forward
import PineTools.Proofs.Convert.Notes
import PineTools.Proofs.Validate.Acceptance
import PineTools.Settings.Basic

/-! What the rules of the newest version say about a script that was converted to it: the word
`varip` is gone where it leads a line, a variable that is declared with `var` is reassigned unless a
leading `varip` was replaced, and there is an import unless the one that is added lands in a
comment. -/
namespace PineTools.Convert

open Reader Pattern

section Occurrences

variable {β : Type}

theorem occursIn_lines {p : Pattern Char β} (hp : p.LineWise) (t : Text) :
    p.occursIn t = (Text.lines t).any p.occursIn := by
  induction t using Text.lines_induction with
  | last l hl => rw [Text.lines_of_oneLine hl, List.any_cons, List.any_nil, Bool.or_false]
  | more l t hl ih =>
    have hnewline : p.occursIn (l ++ '\n' :: t) = (p.occursIn l || p.occursIn t) := by
      have h := hp.findAll_newline l (n := '\n') rfl t
      rw [occursIn, find?, h, List.head?_append, Option.isSome_or, List.head?_map,
        Option.isSome_map]
      rfl
    rw [hnewline, ih, Text.lines_append_newline hl, List.any_cons]

theorem lineWise_reassignment {name : Text} (hname : name ≠ [] ∧ ∀ c ∈ name, Text.isWord c = true) :
    (reassignment name : Pattern Char Unit).LineWise := by
  have hnl : '\n' ∉ name := fun h => absurd (hname.2 _ h) (by decide)
  have hsigns : ∀ sign ∈ reassignmentSigns, '\n' ∉ sign.toList := by decide
  refine lineWise_fresh (advances_fresh ((eats_exactly hname.1).discard.bind fun _ => ?_))
    ((haltsAt_exactly hnl).discard.bind fun _ => (haltsAt_run (by decide)).discard.bind fun _ =>
      (haltsAt_firstOf fun r hr => ?_).discard)
  · refine (trims_run _).discard.bind fun _ => (eats_firstOf fun r hr => ?_).discard.trims
    obtain ⟨sign, hsign, rfl⟩ := List.mem_map.mp hr
    have hne : ∀ sign ∈ reassignmentSigns, sign.toList ≠ [] := by decide
    exact eats_word (hne sign hsign)
  · obtain ⟨sign, hsign, rfl⟩ := List.mem_map.mp hr
    exact haltsAt_word (hsigns sign hsign)

theorem demands_reassignment (name : Text) (before : Option Char) :
    Demands '=' (reassignment name before : Reader Char Unit) := by
  intro gs v rest h
  obtain ⟨-, h⟩ := fresh_eq_some.mp h
  have hsigns : ∀ sign ∈ reassignmentSigns, '=' ∈ sign.toList := by decide
  have hsign : Demands '=' (firstOf (reassignmentSigns.map word) : Reader Char Text) :=
    demands_firstOf fun r hr => by
    obtain ⟨sign, hmem, rfl⟩ := List.mem_map.mp hr
    exact demands_word (hsigns sign hmem)
  have hexactly : Trims (exactly name : Reader Char Text) :=
    fun gs v rest h => ⟨v, (exactly_eq_some.mp h).1⟩
  exact hexactly.discard.bind_demands (fun _ => (trims_run _).discard.bind_demands fun _ =>
    hsign.discard) h

end Occurrences

section Lines

variable {t : Text} {before after : List Text} {v : ScriptVersion}

theorem lines_mask_readLines (t : Text) :
    Text.lines (mask t) = (readLines (.ofLine false) (Text.lines t)).map ScriptLine.masked := by
  rw [lines_mask_eq, scriptLines_readLines]

theorem lines_mask_forward (t : Text) :
    Text.lines (mask (addMethod (replaceKeyword "varip" "var" (freezeVariables t)))) =
      (scriptLines t).map fun line => (reread (forwardLine (isReassigned t)) line).masked := by
  have hone : ∀ l ∈ Text.lines t, Text.OneLine l := fun l hl => Text.oneLine_of_mem_lines hl
  rw [lines_mask_readLines, lines_forward, scriptLines_readLines]
  exact (keeps_forwardLine (isReassigned t)).rewriteLines_rewriteLines ScriptLine.masked hone

/-- The mask gets one more line where an import is added: the import, or blanks where the marker
stands in a comment. -/
theorem lines_mask_addImport (e : Text.lines t = before ++ v.marker :: after)
    (hbefore : ∀ l ∈ before, isMarkerLine l = false)
    (hnone : importStatement.occursIn (mask t) = false) :
    ∃ a b added, Text.lines (mask t) = a ++ b ∧ Text.lines (mask (addImport .shipped t)) =
      a ++ added :: b ∧
      added = (readLine (leavesAll false before) RenameTables.shipped.defaultImport).masked := by
  have hmarker (inComment : Bool) : (readLine inComment v.marker).leaves v.marker = inComment :=
    (readLine_marker v inComment).2
  have himport (inComment : Bool) : (readLine inComment RenameTables.shipped.defaultImport).leaves
      RenameTables.shipped.defaultImport = inComment := by
    revert inComment
    decide +kernel
  have hlines := lines_addImport_of_none .shipped e hbefore (isMarkerLine_marker v) hnone
  rw [Text.lines_of_oneLine plainImport_shipped.oneLine, List.singleton_append] at hlines
  refine ⟨(readLines (.ofLine false) before).map ScriptLine.masked ++
    [(readLine (leavesAll false before) v.marker).masked],
    (readLines (.ofLine (leavesAll false before)) after).map ScriptLine.masked, _, ?_, ?_, rfl⟩
  · rw [lines_mask_readLines, e, readLines_append, readLines_cons, hmarker, List.map_append,
      List.map_cons, List.append_assoc, List.singleton_append]
  · rw [lines_mask_readLines, hlines, readLines_append, readLines_cons, readLines_cons, hmarker,
      himport, List.map_append, List.map_cons, List.map_cons, List.append_assoc,
      List.singleton_append]

/-- Where the marker is written, no comment goes on exactly if the marker stood outside comments. -/
theorem Surroundings.closed_iff {s : Text} (h : Surroundings s before after) :
    leavesAll false before = false ↔ MarkerClear s := by
  refine ⟨fun hclosed line hline => ?_, h.closed⟩
  obtain ⟨before', after', e, hbefore, hl, hopen⟩ := around_marker hline
  have hlines := (lines_setMarker_at e hbefore hl .v6).symm.trans (h.lines .v6)
  have hsame := congrArg (List.takeWhile fun l => !isMarkerLine l) hlines
  rw [(split_at_marker hbefore (isMarkerLine_marker .v6)).1,
    (split_at_marker h.noMarker (isMarkerLine_marker .v6)).1] at hsame
  rw [← hopen, hsame, hclosed]

end Lines

section Newest

variable {t : Text}

abbrev marked (t : Text) : Text := setMarker .v6 t

/-- The step of a script to the newest version, before an import is added. -/
def rewritten (t : Text) : Text :=
  addMethod (replaceKeyword "varip" "var" (freezeVariables (marked t)))

theorem apply_v5ToV6 (t : Text) :
    Step.v5ToV6.apply .shipped t = addImport .shipped (rewritten t) := rfl

theorem Surroundings.lines_rewritten {before after : List Text} (h : Surroundings t before after) :
    Text.lines (rewritten t) = rewriteLines (forwardLine (isReassigned (marked t))) false before ++
      ScriptVersion.v6.marker :: rewriteLines (forwardLine (isReassigned (marked t)))
      (leavesAll false before) after := by
  rw [rewritten, lines_forward, h.lines .v6, (keepsMarkers_forwardLine _).rewriteLines_marker]

theorem lines_mask_newest (t : Text) :
    (importStatement.occursIn (mask (rewritten t)) = true ∧ Step.v5ToV6.apply .shipped t =
      rewritten t) ∨
      (importStatement.occursIn (mask (rewritten t)) = false ∧ ∃ a b added,
        Text.lines (mask (rewritten t)) = a ++ b ∧
        Text.lines (mask (Step.v5ToV6.apply .shipped t)) = a ++ added :: b ∧
        (MarkerClear t ∧ added = "import ta".toList ∨ ¬ MarkerClear t ∧
          added = List.replicate 9 ' ')) := by
  cases hfound : importStatement.occursIn (mask (rewritten t)) with
  | true => exact .inl ⟨rfl, (apply_v5ToV6 t).trans (addImport_of_some hfound)⟩
  | false =>
    obtain ⟨before, after, h⟩ := exists_surroundings t
    obtain ⟨hone, -⟩ := oneLine_of_lines (h.lines .v6)
    obtain ⟨a, b, added, e, e', hadded⟩ := lines_mask_addImport h.lines_rewritten
      ((keepsMarkers_forwardLine _).not_marker_lines hone h.noMarker) hfound
    rw [(keeps_forwardLine _).leavesAll_rewriteLines hone] at hadded
    refine .inr ⟨rfl, a, b, added, e, e', ?_⟩
    cases hclosed : leavesAll false before with
    | false =>
      rw [hclosed] at hadded
      exact .inl ⟨h.closed_iff.mp hclosed, hadded.trans (by decide +kernel)⟩
    | true =>
      rw [hclosed] at hadded
      exact .inr ⟨fun hclear => Bool.noConfusion (hclosed.symm.trans (h.closed hclear)),
        hadded.trans (by decide +kernel)⟩

theorem exists_rewritten_iff {P Q : Text → Prop}
    (h : ∀ code code', Forwarded (fun name => (reassignment name).occursIn (mask (marked t))) code
      code' → (P code' ↔ Q code)) :
    (∃ code ∈ Text.lines (mask (rewritten t)), P code) ↔ ∃ code ∈ Text.lines (mask (marked t)),
      Q code := by
  rw [rewritten, lines_mask_forward, lines_mask_eq]
  simp only [List.mem_map, exists_exists_and_eq_and]
  exact exists_congr fun line => and_congr_right fun hline =>
    h _ _ (forwarded (marked t) (isRead_of_mem_scriptLines hline))

/-- The same holds after the step for what is told of no line that is added. -/
theorem exists_newest_iff {P Q : Text → Prop} (himport : ¬ P "import ta".toList)
    (hblank : ¬ P (List.replicate 9 ' '))
    (h : ∀ code code', Forwarded (fun name => (reassignment name).occursIn (mask (marked t))) code
    code' → (P code' ↔ Q code)) :
    (∃ code ∈ Text.lines (mask (Step.v5ToV6.apply .shipped t)), P code) ↔
      ∃ code ∈ Text.lines (mask (marked t)), Q code := by
  rw [← exists_rewritten_iff h]
  rcases lines_mask_newest t with ⟨-, e⟩ | ⟨-, a, b, added, e, e', hadded⟩
  · rw [e]
  · have hnone : ¬ P added := by
      rcases hadded with ⟨-, rfl⟩ | ⟨-, rfl⟩
      · exact himport
      · exact hblank
    rw [e, e']
    simp only [List.mem_append, List.mem_cons, or_and_right, exists_or, exists_eq_left,
      hnone, false_or]

theorem not_occurs_of_demand {p : Pattern Char Unit} {c : Char}
    (hp : ∀ before, Demands c (p before)) {code : Text} (hc : c ∉ code) :
    ¬ p.occursIn code = true := fun h => hc ((List.map_id code).subst (demands_occursIn hp h))

theorem varip_newest_iff (t : Text) :
    (∃ code ∈ Text.lines (mask (Step.v5ToV6.apply .shipped t)), varipWord.occursIn code = true) ↔
      ∃ code ∈ Text.lines (mask (marked t)), varipWord.occursIn (asVar code) = true := by
  refine exists_newest_iff (not_occurs_of_demand demands_varipWord (by decide))
    (not_occurs_of_demand demands_varipWord (by decide)) fun code code' h => ?_
  rw [h.varip]

theorem reassigned_newest_iff (t : Text) {name : Text}
    (hname : name ≠ [] ∧ ∀ c ∈ name, Text.isWord c = true) :
    (reassignment name).occursIn (mask (Step.v5ToV6.apply .shipped t)) = true ↔
      ∃ code ∈ Text.lines (mask (marked t)), (reassignment name).occursIn (asVar code) = true := by
  rw [occursIn_lines (lineWise_reassignment hname), List.any_eq_true]
  refine exists_newest_iff (not_occurs_of_demand (demands_reassignment name) (by decide))
    (not_occurs_of_demand (demands_reassignment name) (by decide)) fun code code' h => ?_
  rw [h.reassigns hname]

theorem variable_newest_iff (t : Text) (P : VariableDeclaration Char → Prop) :
    (∃ code ∈ Text.lines (mask (Step.v5ToV6.apply .shipped t)), ∃ d,
      variableDeclaration.readAt? code = some d ∧ P d) ↔
      ∃ code ∈ Text.lines (mask (marked t)), ∃ d, variableDeclaration.readAt?
        (asVar code) = some d ∧
        ((leadingKeyword "varip" : Pattern Char (LeadingKeyword Char)).readAt? code = none →
          (reassignment d.name).occursIn (mask (marked t)) = true) ∧ P d := by
  have hnone {code : Text} (hv : 'v' ∉ code) :
      ¬ ∃ d, (variableDeclaration : Pattern Char (VariableDeclaration Char)).readAt? code =
        some d ∧ P d := fun ⟨d, hd, _⟩ => by
    obtain ⟨rest, hd⟩ := readAt?_eq_some hd
    exact hv ((List.map_id code).subst (demands_variableDeclaration hd))
  refine exists_newest_iff (hnone (by decide)) (hnone (by decide)) fun code code' h =>
    exists_congr fun d => ?_
  rw [h.variable_iff, and_assoc]

theorem import_newest_iff (t : Text) :
    importStatement.occursIn (mask (Step.v5ToV6.apply .shipped t)) = true ↔
      (∃ code ∈ Text.lines (mask (marked t)), importStatement.readAt? code ≠ none ∧
        functionDefinition.readAt? code = none) ∨
        MarkerClear t := by
  have hlines (t : Text) : importStatement.occursIn t = true ↔ ∃ code ∈ Text.lines t,
      importStatement.readAt? code ≠ none := by
    have hoccurs : importStatement.occursIn t = (Text.lines t).any fun l =>
        (importStatement none l).isSome :=
      occursIn_atLineStart (lineWise_importStatement.halts none) t
    rw [hoccurs, List.any_eq_true]
    refine exists_congr fun code => and_congr_right fun _ => ?_
    rw [readAt?, Ne, Option.map_eq_none_iff, ← Ne, ← Option.isSome_iff_ne_none]
  have hrewritten : importStatement.occursIn (mask (rewritten t)) = true ↔
    ∃ code ∈ Text.lines (mask (marked t)),
      importStatement.readAt? code ≠ none ∧ functionDefinition.readAt? code = none :=
    (hlines _).trans (exists_rewritten_iff fun code code' h => h.import_iff)
  rw [← hrewritten]
  rcases lines_mask_newest t with ⟨hfound, e⟩ | ⟨hfound, a, b, added, e, e', hadded⟩
  · rw [e]
    exact ⟨.inl, fun _ => hfound⟩
  · have hnone : ¬ ∃ code ∈ a ++ b, importStatement.readAt? code ≠ none := by
      rw [← e, ← hlines, hfound]
      exact Bool.false_ne_true
    rw [hlines, e', hfound]
    simp only [List.mem_append, List.mem_cons, or_and_right, exists_or, exists_eq_left,
      not_or] at hnone ⊢
    simp only [hnone, false_or, or_false, Bool.false_eq_true]
    rcases hadded with ⟨hclear, rfl⟩ | ⟨hclear, rfl⟩
    · exact iff_of_true (by decide +kernel) hclear
    · exact iff_of_false (by decide +kernel) hclear

end Newest

section Rules

variable {τ κ : Type} [Timeline τ] [Clock κ τ] {settings : ValidationSettings τ}
    {fallback v : ScriptVersion} {budget : Option τ}
  {clock : κ} {s t : Text} {r : ValidationResult} {target : Json}

theorem not_blank_of_marked (h : Marked v t) : Text.isAllSpace t = false := by
  obtain ⟨before, after, e, -, -⟩ := h
  have hslash : '/' ∈ v.marker := by cases v <;> decide
  exact Text.isAllSpace_of_mem
    (Text.mem_of_mem_line (e ▸ List.mem_append_right before List.mem_cons_self) hslash) (by decide)

/-- What the rules about keywords, imports and variables say of a script that is taken to the newest
version. -/
structure NewestRules (t : Text) (r : ValidationResult) : Prop where
  varip : r.hasRule "PS3102".toList = false ↔
    ∀ code ∈ Text.lines (mask (marked t)), varipWord.occursIn (asVar code) = false
  import_missing : r.hasRule "PS3105".toList = false ↔
    (∃ code ∈ Text.lines (mask (marked t)), importStatement.readAt? code ≠ none ∧
      functionDefinition.readAt? code = none) ∨
      MarkerClear t
  unassigned : r.hasRule "PS3106".toList = false ↔
    ∀ code ∈ Text.lines (mask (marked t)), ∀ d, variableDeclaration.readAt? (asVar code) = some d →
      (∃ other ∈ Text.lines (mask (marked t)), (reassignment d.name).occursIn
        (asVar other) = true) ∨
        ((leadingKeyword "varip" : Pattern Char (LeadingKeyword Char)).readAt? code = none ∧
          (reassignment d.name).occursIn (mask (marked t)) = false)

theorem newestRules (hnone : settings.ignoredRules = [])
    (h : (validate settings fallback none budget clock (Step.v5ToV6.apply .shipped t)).outcome =
      .ok r) : NewestRules t r := by
  have hmarked : Marked .v6 (Step.v5ToV6.apply .shipped t) :=
    marked_apply namesOnly_shipped t .v5ToV6
  have hrule {rule : VersionRule} (hmem : rule ∈ versionRules) (hversions : rule.versions = [.v6]) :
      r.hasRule rule.id.toList = false ↔
        ¬ rule.fires (mask (Step.v5ToV6.apply .shipped t)) = true := by
    rw [← Bool.not_eq_true, validate_hasRule_iff hnone (not_blank_of_marked hmarked) h hmem,
      hmarked.detectVersion, hversions]
    simp
  obtain ⟨varip, hvarip, hvaripId, hvaripVersions, hvaripCheck⟩ : ∃ rule ∈ versionRules,
    rule.id = "PS3102" ∧
      rule.versions = [.v6] ∧ rule.check = .line Rule.varip :=
        ⟨versionRules[3], List.getElem_mem _, rfl, rfl, rfl⟩
  obtain ⟨missing, hmissing, hmissingId, hmissingVersions, hmissingCheck⟩ : ∃ rule ∈ versionRules,
    rule.id = "PS3105" ∧
      rule.versions = [.v6] ∧ rule.check = .script Rule.noImport :=
        ⟨versionRules[7], List.getElem_mem _, rfl, rfl, rfl⟩
  obtain ⟨frozen, hfrozen, hfrozenId, hfrozenVersions, hfrozenCheck⟩ : ∃ rule ∈ versionRules,
    rule.id = "PS3106" ∧
      rule.versions = [.v6] ∧ rule.check = .line Rule.neverReassigned :=
        ⟨versionRules[6], List.getElem_mem _, rfl, rfl, rfl⟩
  refine ⟨?_, ?_, ?_⟩
  · rw [← hvaripId, hrule hvarip hvaripVersions, varip_fires_iff hvaripCheck, varip_newest_iff]
    simp only [not_exists, not_and, Bool.not_eq_true]
  · rw [← hmissingId, hrule hmissing hmissingVersions, noImport_fires_iff hmissingCheck,
      ← import_newest_iff, Bool.not_eq_false]
  · rw [← hfrozenId, hrule hfrozen hfrozenVersions, neverReassigned_fires_iff hfrozenCheck,
      variable_newest_iff]
    simp only [not_exists, not_and]
    refine forall₄_congr fun code hcode d hd => ?_
    rw [Bool.not_eq_false, reassigned_newest_iff t (name_of_variable hd)]
    constructor
    · intro h
      cases hkept : (reassignment d.name).occursIn (mask (marked t)) with
      | true => exact .inl (h fun _ => hkept)
      | false =>
        by_cases hleading :
          (leadingKeyword "varip" : Pattern Char (LeadingKeyword Char)).readAt? code = none
        · exact .inr ⟨hleading, rfl⟩
        · exact .inl (h fun k => absurd k hleading)
    · rintro (h | ⟨hleading, hkept⟩) hmust
      · exact h
      · exact Bool.noConfusion (hkept.symm.trans (hmust hleading))

/-- The way to the newest version leads over the middle one. -/
theorem newest_by_middle (tables : RenameTables Text) (s : Text) (hne : v ≠ .v6) :
    ∃ t, (path v .v5).foldl (Step.apply tables) s = t ∧
      (path v .v6).foldl (Step.apply tables) s = Step.apply tables t .v5ToV6 := by
  generalize Step.apply tables = f
  cases v with
  | v4 => exact ⟨f s .v4ToV5, rfl, rfl⟩
  | v5 => exact ⟨s, rfl, rfl⟩
  | v6 => exact absurd rfl hne

/-- A script of an older version is converted to the newest one by way of the middle one. Its
validation there returns or runs out of time, and says of `varip`, of imports and of variables what
the lines of the middle version decide: the word `varip` is reported where it does not lead its
line, no import is reported missing unless the marker stands in a comment, and a variable is
reported unless it is reassigned or frozen. -/
theorem convert_newest_rules_iff (hnone : settings.ignoredRules = [])
    (htarget : ScriptVersion.parse target = .ok .v6) (hv : detectVersion s fallback = .ok v)
    (hne : v ≠ .v6) :
    ∃ t r, convertTo fallback .shipped s .v5 = .ok t ∧ convert fallback .shipped s target = .ok r ∧
      ∀ (other : ScriptVersion) (budget : Option τ) (clock : κ),
        ((∃ result, (validate settings other none budget clock r).outcome = .ok result) ∨
          ∃ e, (validate settings other none budget clock r).outcome = .error (.timeout e)) ∧
        ∀ result, (validate settings other none budget clock r).outcome = .ok result →
        NewestRules t result := by
  obtain ⟨t, hmiddle, hnewest⟩ := newest_by_middle .shipped s hne
  refine ⟨t, Step.v5ToV6.apply .shipped t, ?_, ?_, fun other budget clock =>
    ⟨?_, fun result h => newestRules hnone h⟩⟩
  · rw [convertTo, hv, Except.map, hmiddle]
  · rw [convert_eq hv htarget, hnewest]
  · exact validate_returns_or_late ((marked_apply namesOnly_shipped t .v5ToV6).detectVersion other)

/-- A leading `varip` whose variable is reassigned, a variable that is frozen, and a marker outside
comments. -/
theorem convert_newest_rules_iff_counter :
    let s := "//@version=5\nindicator(\"x\")\nvarip n = 0\nn := n + 1\nvar a = 1".toList
    let r := "//@version=6\nimport ta\nindicator(\"x\")\nvar n = 0\nn := n + 1\nlet a = 1".toList
    let run := validate (κ := SteadyClock) .standard .v5 none none ⟨0.0, 0.5⟩
    convert .v5 .shipped s (.int 6) = .ok r ∧ ∃ result, (run r).outcome = .ok result ∧
      result.hasRule "PS3102".toList = false ∧
      result.hasRule "PS3105".toList = false ∧ result.hasRule "PS3106".toList = false := by
  intro s r run
  have hconvert : convert .v5 .shipped s (.int 6) = .ok r := by decide +kernel
  have hok : (run r).outcome.isOk = true := by decide +kernel
  obtain ⟨t, r', hmiddle, hnewest, hrules⟩ :=
    @convert_newest_rules_iff Float SteadyClock _ _ .standard .v5 .v5 s (.int 6) rfl
    (by decide +kernel) (by decide +kernel) (by decide)
  obtain rfl : r = r' := Except.ok.inj (hconvert.symm.trans hnewest)
  obtain rfl : s = t :=
    Except.ok.inj ((by decide +kernel : convertTo .v5 .shipped s .v5 = .ok s).symm.trans hmiddle)
  cases hr : (run r).outcome with
  | error e =>
    rw [hr] at hok
    cases hok
  | ok result =>
    obtain ⟨hvarip, hmissing, hunassigned⟩ := (hrules .v5 none ⟨0.0, 0.5⟩).2 result hr
    refine ⟨hconvert, result, rfl, hvarip.mpr (by decide +kernel),
      hmissing.mpr (.inr (by decide +kernel)), hunassigned.mpr ?_⟩
    have hlines : ∀ code ∈ Text.lines (mask (marked s)),
      ∀ d ∈ (variableDeclaration : Pattern Char _).readAt? (asVar code),
        (∃ other ∈ Text.lines (mask (marked s)), (reassignment d.name).occursIn
          (asVar other) = true) ∨
          ((leadingKeyword "varip" : Pattern Char (LeadingKeyword Char)).readAt? code).isSome =
            false ∧
            (reassignment d.name).occursIn (mask (marked s)) = false := by
      decide +kernel
    intro code hcode d hd
    simpa only [Option.isSome_eq_false_iff, Option.isNone_iff_eq_none] using hlines code hcode d hd

/-- A script of the middle version becomes one of the newest in which a validation with standard
settings reports a rule. -/
def ReportedAfter (s r : Text) (rule : String) : Prop :=
  detectVersion s .v5 = .ok .v5 ∧ convert .v5 .shipped s (.int 6) = .ok r ∧
    ∃ result, (validate (κ := SteadyClock) .standard .v5 none none ⟨0.0, 0.5⟩ r).outcome =
      .ok result ∧
      result.hasRule rule.toList = true

theorem reportedAfter {s r : Text} {rule : String} (hv : detectVersion s .v5 = .ok .v5)
    (hr : convert .v5 .shipped s (.int 6) = .ok r)
    (h : (validate (κ := SteadyClock) .standard .v5 none none ⟨0.0, 0.5⟩ r).outcome.toOption.any
    (·.hasRule rule.toList) = true) :
    ReportedAfter s r rule := by
  refine ⟨hv, hr, ?_⟩
  cases hresult : (validate (κ := SteadyClock) .standard .v5 none none ⟨0.0, 0.5⟩ r).outcome with
  | error e =>
    rw [hresult] at h
    cases h
  | ok result =>
    rw [hresult] at h
    exact ⟨result, rfl, h⟩

/-- The word `varip` behind a comma, a `varip` whose variable is never reassigned, and a marker in a
comment. -/
theorem convert_newest_reports :
    ReportedAfter "//@version=5\nf(1), varip b = 2".toList
      "//@version=6\nimport ta\nf(1), varip b = 2".toList "PS3102" ∧
      ReportedAfter "//@version=5\nvarip b = 2".toList "//@version=6\nimport ta\nvar b = 2".toList
        "PS3106" ∧
      ReportedAfter "/*\n//@version=5\n*/".toList "/*\n//@version=6\nimport ta\n*/".toList
        "PS3105" := by
  refine ⟨reportedAfter ?_ ?_ ?_, reportedAfter ?_ ?_ ?_, reportedAfter ?_ ?_ ?_⟩ <;> decide +kernel

end Rules

end PineTools.Convert
