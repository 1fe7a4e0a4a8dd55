import PineTools.Proofs.Convert.Frame
import PineTools.Proofs.Version.Comment

/-! What a conversion does to the comments and literals of a script. Every step but one keeps all of
them around the first marker. In the step from the newest version a method loses its mark, and with
it the comments between the keyword and what it marks; nothing else is lost. -/
namespace PineTools.Convert

open Mode

variable {tables : RenameTables Text} {s t : Text} {u v : ScriptVersion} {inComment : Bool}
    {noted : ScriptVersion → List Text}
  {before after : List Text}

section Marker

def markerLine? (s : Text) :
    Option ScriptLine := (scriptLines s).find? fun line => isMarkerLine line.text

def markerNote (s : Text) : List Text :=
  ((markerLine? s).map fun line => Text.trimLeft Text.isBlank line.text).toList

/-- The first marker of a script, if there is one, does not stand in a block comment. -/
def MarkerClear (s : Text) : Prop := ∀ line ∈ markerLine? s, line.inComment = false

instance (s : Text) :
    Decidable (MarkerClear s) :=
    inferInstanceAs (Decidable (∀ line ∈ markerLine? s, line.inComment = false))

/-- The lines around the place where a conversion writes its marker. -/
structure Surroundings (s : Text) (before after : List Text) : Prop where
  lines (v : ScriptVersion) : Text.lines (setMarker v s) = before ++ v.marker :: after
  source : Text.lines s = before ++ (((markerLine? s).map ScriptLine.text).toList ++ after)
  noMarker : ∀ l ∈ before, isMarkerLine l = false
  closed : MarkerClear s → leavesAll false before = false
  notes_eq : MarkerClear s → notes s = notes (Text.unlines before) ++
    (markerNote s ++ notes (Text.unlines after))
  front_eq : markerNote s = [] → notes (Text.unlines before) = []

theorem notes_around (h : leavesAll false before = false) {l : Text}
    (hl : (readLine false l).leaves l = false) (after : List Text) :
    notes (Text.unlines (before ++ l :: after)) = notes (Text.unlines before) ++
      (notes l ++ notes (Text.unlines after)) := by
  rw [notes_unlines_append h]
  exact congrArg _ (notes_unlines_append (a := [l]) hl after)

theorem trimLeft_blanks {b u : Text} (hb : ∀ c ∈ b, Text.isBlank c = true) :
    Text.trimLeft Text.isBlank (b ++ ("//".toList ++ u)) = "//".toList ++ u := by
  rw [Text.trimLeft, List.dropWhile_append_of_pos hb]
  rfl

theorem exists_surroundings (s : Text) : ∃ before after, Surroundings s before after := by
  cases hfind : markerLine? s with
  | none =>
    have hnote : markerNote s = [] := by rw [markerNote, hfind]; rfl
    have hnone : (Text.lines s).find? isMarkerLine = none := by
      rw [← readLines_texts false (Text.lines s), ← scriptLines_readLines, List.find?_map]
      exact congrArg (Option.map ScriptLine.text) hfind
    refine ⟨[], Text.lines s, fun v => ?_, by
      rw [hfind]; rfl, List.forall_mem_nil _, fun _ => rfl, fun _ => ?_, fun _ => rfl⟩
    · rcases lines_setMarker v s with ⟨before, l, after, e, -, hl, -⟩ | ⟨-, e⟩
      · exact absurd hl
          (List.find?_eq_none.mp hnone l (e ▸ List.mem_append_right before List.mem_cons_self))
      · exact e
    · rw [hnote, Text.unlines_lines]
      rfl
  | some line =>
    obtain ⟨before, after, e, hbefore, hl, hopen⟩ := around_marker hfind
    have hone : Text.OneLine line.text :=
      Text.oneLine_of_mem_lines (e ▸ List.mem_append_right before List.mem_cons_self)
    obtain ⟨b, u, hb, hu, htext⟩ := exists_comment_of_marker hl hone
    have hleaves : (readLine false line.text).leaves line.text = false :=
      htext ▸ leaves_comment_line hb hu
    have hnote : markerNote s = ["//".toList ++ u] := by
      rw [markerNote, hfind, Option.map_some, htext, trimLeft_blanks hb]
      rfl
    have hclosed (hclear : MarkerClear s) : leavesAll false before = false :=
      hopen.trans (hclear line hfind)
    refine ⟨before, after, fun v => lines_setMarker_at e hbefore hl v, by
      rw [hfind]; exact e, hbefore, hclosed, fun hclear => ?_, fun hnone => ?_⟩
    · rw [hnote, ← notes_comment_line hb hu, ← htext, ← notes_around (hclosed hclear) hleaves, ← e,
        Text.unlines_lines]
    · rw [hnote] at hnone
      cases hnone

theorem Surroundings.framed (h : Surroundings s before after) (v : ScriptVersion) :
    Framed (leavesAll false before) v (fun w => notes (setMarker w s)) (setMarker v s) :=
  ⟨before, after, h.lines v, h.noMarker, rfl, fun w => by rw [← h.lines w, Text.unlines_lines]⟩

/-- A marker that stands outside comments is a comment of its own. -/
theorem Surroundings.notes_setMarker (h : Surroundings s before after) (hclear : MarkerClear s)
    (v : ScriptVersion) :
    notes (setMarker v s) = notes (Text.unlines before) ++ v.marker ::
      notes (Text.unlines after) := by
  rw [← Text.unlines_lines (setMarker v s), h.lines v, notes_around (h.closed hclear)
    (readLine_marker v false).2, (Repair.notes_marker v).1]
  rfl

end Marker

section Methods

/-- No comment stands between the keyword of a method and what it marks. -/
def MethodsClear (s : Text) : Prop := ∀ line ∈ scriptLines s, MarksClear line

instance (s : Text) :
    Decidable (MethodsClear s) :=
    inferInstanceAs (Decidable (∀ line ∈ scriptLines s, MarksClear line))

/-- The step back, up to the import, keeps the notes exactly if no comment stands between a keyword
and what it marks. -/
theorem notes_backward_iff {t t' : Text}
    (e : Text.lines t' = rewriteLines backwardLine false (Text.lines t)) :
    notes t' = notes t ↔ MethodsClear t := by
  have hone : ∀ l ∈ Text.lines t, Text.OneLine l := fun l hl => Text.oneLine_of_mem_lines hl
  have hrevises := revises_unlines (fun _ hline => respells_backwardLine hline) hone
  rw [← scriptLines_readLines, ← e, Text.unlines_lines, Text.unlines_lines] at hrevises
  have hclear : (∀ swap ∈ (scriptLines t).flatMap backwardSwaps, (notes swap.old).length = 0) ↔
      MethodsClear t := by
    simp only [List.length_eq_zero_iff, List.forall_mem_flatMap]
    refine forall₂_congr fun line hline => backwardSwaps_clear ?_
    rw [scriptLines_readLines] at hline
    exact (isRead_of_mem_readLines hone hline).1
  obtain ⟨-, hlost, hsame⟩ :=
    @Revises.notes_lost _ _ _ hrevises (fun swap => (notes swap.old).length) fun swap hswap => by
    obtain ⟨line, -, hswap⟩ := List.mem_flatMap.mp hswap
    rw [notes_backwardSwaps swap hswap]
    exact ⟨Nat.zero_add _, fun hzero => (List.length_eq_zero_iff.mp hzero).symm⟩
  exact ⟨fun heq => hclear.mp (hlost (congrArg List.length heq)), fun h => hsame (hclear.mpr h)⟩

theorem Surroundings.framed_backward (h : Surroundings s before after) (v : ScriptVersion) :
    ∃ noted, Framed (leavesAll false before) v noted
      (dropMethod (replaceKeyword "let" "var" (setMarker v s))) ∧
      ∀ w, noted w = notes (setMarker w s) ↔ MethodsClear (setMarker w s) := by
  have hlines (w : ScriptVersion) :
    Text.lines (dropMethod (replaceKeyword "let" "var" (setMarker w s))) =
      rewriteLines backwardLine false before ++ w.marker :: rewriteLines backwardLine
        (leavesAll false before) after := by
    rw [lines_backward, h.lines, keepsMarkers_backwardLine.rewriteLines_marker]
  obtain ⟨hone, -⟩ := oneLine_of_lines (h.lines v)
  have hrevises := revises_unlines (fun _ hline => respells_backwardLine hline) hone
  refine ⟨_, ⟨_, _, hlines v, keepsMarkers_backwardLine.not_marker_lines hone h.noMarker,
    hrevises.leavesAll_rewriteLines, fun w => rfl⟩, fun w => ?_⟩
  rw [← hlines, Text.unlines_lines]
  exact notes_backward_iff (lines_backward _)

end Methods

section Steps

/-- The steps but the one from the newest version keep what is around the marker. Where it stands in
a block comment the newest version is left out, since an import goes behind it. -/
theorem Framed.body (htables : Invertible tables) (himport : TameImport tables)
    (h : Framed inComment v noted t) {step : Step} (hstep : step ≠ .v6ToV5)
    (hopen : step.target = .v6 → inComment = false) :
    Framed inComment v noted (step.body tables t) := by
  cases step with
  | v4ToV5 => exact h.modernizeNames htables
  | v5ToV4 => exact h.restoreNames htables
  | v5ToV6 =>
    obtain rfl := hopen rfl
    exact (h.freezeVariables.replaceKeyword isName_varip isName_var).addMethod.addImport himport
  | v6ToV5 => exact absurd rfl hstep

theorem framed_foldl (htables : Invertible tables) (himport : TameImport tables)
    (h : ∀ v, Framed inComment v noted (setMarker v t)) {steps : List Step} {last : Step}
    (hsteps : ∀ step ∈ steps ++ [last], step ≠ .v6ToV5 ∧ (step.target = .v6 → inComment = false)) :
    Framed inComment last.target noted ((steps ++ [last]).foldl (Step.apply tables) t) := by
  induction steps generalizing t with
  | nil =>
    obtain ⟨hstep, hopen⟩ := hsteps last List.mem_cons_self
    exact (h last.target).body htables himport hstep hopen
  | cons step steps ih =>
    rw [List.cons_append, List.forall_mem_cons] at hsteps
    obtain ⟨⟨hstep, hopen⟩, hsteps⟩ := hsteps
    have hframed : Framed inComment step.target noted (step.apply tables t) :=
      (h step.target).body htables himport hstep hopen
    exact ih hframed.setMarker hsteps

theorem mem_path {step : Step} (hu : u ≠ .v6) (h : step ∈ path u v) :
    step ≠ .v6ToV5 ∧ (step.target = .v6 → v = .v6) := by
  revert hu h
  cases u <;> cases v <;> cases step <;> decide

/-- So does a way that does not begin at the newest version. -/
theorem framed_path (htables : Invertible tables) (himport : TameImport tables)
    (h : ∀ v, Framed inComment v noted (setMarker v t)) (hne : u ≠ v) (hu : u ≠ .v6)
    (hopen : v = .v6 → inComment = false) :
    Framed inComment v noted ((path u v).foldl (Step.apply tables) t) := by
  have hsteps {step : Step} (hstep : step ∈ path u v) : step ≠ .v6ToV5 ∧
      (step.target = .v6 → inComment = false) :=
    ⟨(mem_path hu hstep).1, fun e => hopen ((mem_path hu hstep).2 e)⟩
  obtain ⟨steps, step, hpath, rfl⟩ := target_of_path hne
  rw [hpath] at hsteps ⊢
  exact framed_foldl htables himport h fun _ hstep => hsteps hstep

/-- From the newest version on all notes stay exactly if no comment stands between a keyword and
what it marks. -/
theorem framed_path_newest (htables : Invertible tables) (himport : TameImport tables)
    (h : Surroundings s before after) (hne : v ≠ .v6) :
    ∃ noted, Framed (leavesAll false before) v noted ((path .v6 v).foldl (Step.apply tables) s) ∧
      ∀ w, noted w = notes (setMarker w s) ↔ MethodsClear (setMarker w s) := by
  obtain ⟨noted, hframed, hsame⟩ := h.framed_backward .v5
  have hstep : Framed (leavesAll false before) .v5 noted (Step.v6ToV5.apply tables s) := by
    rw [apply_v6ToV5]
    exact hframed.dropImport himport
  refine ⟨noted, ?_, hsame⟩
  have hpath : path .v6 v = .v6ToV5 :: path .v5 v := by
    cases v with
    | v6 => exact absurd rfl hne
    | v4 | v5 => rfl
  rw [hpath, List.foldl_cons]
  by_cases hv : .v5 = v
  · subst hv
    rw [path_self, List.foldl_nil]
    exact hstep
  · exact framed_path htables himport hstep.setMarker hv (by decide) fun e => absurd e hne

end Steps

theorem tameImport_shipped : TameImport .shipped := by
  constructor <;> decide

/-- A conversion changes nothing if the version stays. Otherwise, unless the newest version is asked
for and the marker stands in a block comment, the result has the comments and literals of the script
with the new marker written, exactly if the script is not of the newest version or no comment stands
between the keyword of a method and what it marks. A marker that stands outside comments is a
comment of its own, and all the others are those of the script. A marker line inside a block comment
loses what stands behind its number in any conversion, also the end of the comment: there only the
script with the new marker is compared. -/
theorem convert_keeps_notes_iff (fallback : ScriptVersion) {s r : Text} {target : Json}
    (h : convert fallback .shipped s target = .ok r) :
    ∃ u v, detectVersion s fallback = .ok u ∧ ScriptVersion.parse target = .ok v ∧ (u = v → r = s) ∧
      (u ≠ v → (v = .v6 → MarkerClear s) →
        (notes r = notes (setMarker v s) ↔ (u = .v6 → MethodsClear (setMarker v s)))) ∧
      (MarkerClear s → ∃ front back, notes s = front ++ (markerNote s ++ back) ∧
        (markerNote s = [] → front = []) ∧
        notes (setMarker v s) = front ++ v.marker :: back) := by
  obtain ⟨u, v, hdetect, hparse, rfl⟩ := convert_eq_ok h
  obtain ⟨before, after, haround⟩ := exists_surroundings s
  refine ⟨u, v, hdetect, hparse, ?_, fun hne hnewest => ?_, fun hclear => ?_⟩
  · rintro rfl
    rw [path_self]
    rfl
  · by_cases hu : u = .v6
    · subst hu
      obtain ⟨noted, hframed, hsame⟩ :=
        framed_path_newest invertible_shipped tameImport_shipped haround hne.symm
      rw [hframed.notes_eq]
      exact (hsame v).trans ⟨fun hmethods _ => hmethods, fun hmethods => hmethods rfl⟩
    · have hframed := framed_path invertible_shipped tameImport_shipped haround.framed hne hu
        fun e => haround.closed (hnewest e)
      exact iff_of_true hframed.notes_eq fun e => absurd e hu
  · exact ⟨_, _, haround.notes_eq hclear, haround.front_eq, haround.notes_setMarker hclear v⟩

/-- A method of the newest version, with comments before and behind and a literal. -/
theorem convert_keeps_notes_iff_method :
    let s := "/* a */\n //@version=6\nmethod f(x) => \"y\" // b".toList
    let r := "/* a */\n//@version=5\nf(x) => \"y\" // b".toList
    convert .v5 .shipped s (.int 5) = .ok r ∧ ∃ front back,
      notes s = front ++ "//@version=6".toList :: back ∧ notes r =
        front ++ "//@version=5".toList :: back := by
  intro s r
  have hconvert : convert .v5 .shipped s (.int 5) = .ok r := by decide +kernel
  obtain ⟨u, v, hdetect, hparse, -, hkept, hclear⟩ := convert_keeps_notes_iff .v5 hconvert
  have hsource : detectVersion s .v5 = .ok .v6 := by decide +kernel
  have htarget : ScriptVersion.parse (.int 5) = .ok .v5 := by decide +kernel
  obtain rfl : u = .v6 := Except.ok.inj (hdetect.symm.trans hsource)
  obtain rfl : v = .v5 := Except.ok.inj (hparse.symm.trans htarget)
  have hmarker : MarkerClear s := by decide +kernel
  have hmethods : MethodsClear (setMarker .v5 s) := by decide +kernel
  have hnote : markerNote s = ["//@version=6".toList] := by decide +kernel
  obtain ⟨front, back, hnotes, -, hset⟩ := hclear hmarker
  rw [hnote] at hnotes
  exact ⟨hconvert, front, back, hnotes,
    ((hkept (by decide) fun e => nomatch e).mpr fun _ => hmethods).trans hset⟩

/-- The comment between the keyword of a method and its name is lost. -/
theorem convert_loses_comment :
    let s := "//@version=6\nmethod /* c */ f(x) =>\n    x".toList
    convert .v5 .shipped s (.int 5) = .ok "//@version=5\nf(x) =>\n    x".toList ∧
      notes s = ["//@version=6".toList, "/* c */".toList] ∧
      notes "//@version=5\nf(x) =>\n    x".toList = ["//@version=5".toList] := by
  decide +kernel

end PineTools.Convert
