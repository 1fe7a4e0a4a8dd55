import PineTools.Proofs.Layout.Markers

/-! Formatting moves white space only. The solid characters of the formatted script are those of the
script, after the marker if one was put in front. With spaces around operators every one of them
keeps its region, so that literals and the structural imbalance are those of the script. -/
namespace PineTools.Layout

theorem canonicalMarker?_states {t l new : Text} (hl : l ∈ Text.lines t)
    (h : canonicalMarker? l = some new) :
    statesVersion t = true := by
  obtain ⟨digits, hlone, -⟩ := Option.map_eq_some_iff.mp h
  exact List.any_eq_true.mpr ⟨l, hl, (loneMarker?_eq_some hlone).1⟩

theorem keeps_marker (strict : Prop) {t old new : Text} {before after : List Text}
    (hlines : Text.lines t = before ++ old :: after) (h : canonicalMarker? old = some new) :
    Keeps strict (Text.unlines (before ++ new :: after)) t := by
  obtain ⟨digits, hlone, rfl⟩ := Option.map_eq_some_iff.mp h
  have hone : ∀ l ∈ before ++ old :: after, Text.OneLine l :=
    fun l hl => Text.oneLine_of_mem_lines (hlines ▸ hl)
  obtain ⟨hbefore, hrest⟩ := List.forall_mem_append.mp hone
  obtain ⟨hold, hafter⟩ := List.forall_mem_cons.mp hrest
  have stands := fun inComment => standsFor_marker True inComment hlone hold
  refine keeps_unlines (by simp) ?_ ?_ fun _ => ?_
  · exact List.forall_mem_append.mpr
      ⟨hbefore, List.forall_mem_cons.mpr ⟨(stands false).oneLine, hafter⟩⟩
  · rw [hlines]
    simp only [List.map_append, List.map_cons, (stands false).solid]
  · rw [hlines, show Mode.start = .ofLine false from rfl, substance_append, substance_append,
      substance_cons _ old, ← (stands _).substance trivial, ← substance_cons]

theorem syncVersionComment_keeps (fallback : ScriptVersion) (strict : Prop) {t : Text}
    (h : statesVersion t = true) :
    Keeps strict (syncVersionComment fallback t).text t := by
  rw [syncVersionComment_lines]
  obtain ⟨before, after, old, new, hlines, hnew, -, e⟩ | ⟨-, e⟩ :=
    markedLines_cases fallback (Text.lines t)
  · rw [e]
    exact keeps_marker strict hlines hnew
  · rw [e, ← statesVersion, if_pos h, Text.unlines_lines]
    exact keeps_self t

theorem syncVersionComment_inserts (fallback : ScriptVersion) {t : Text}
    (h : statesVersion t = false) :
    (syncVersionComment fallback t).text = fallback.marker ++ '\n' :: t := by
  rw [syncVersionComment_lines]
  obtain ⟨before, after, old, new, hlines, hnew, -⟩ | ⟨-, e⟩ :=
    markedLines_cases fallback (Text.lines t)
  · have hold : old ∈ Text.lines t := by simp [hlines]
    rw [canonicalMarker?_states hold hnew] at h
    cases h
  · rw [e, ← statesVersion, if_neg (by rw [h]; decide), Text.unlines_cons (Text.lines_ne_nil t),
      Text.unlines_lines]

/-- The version comment that the formatter puts in front of a script. -/
def insertedMarker (fallback : ScriptVersion) (options : FormatOptions) (script : Text) : Text :=
  if options.updateVersionComment && !statesVersion (Text.normalizeBreaks script) then
    fallback.marker else []

theorem marker_line (v : ScriptVersion) : Text.OneLine v.marker ∧ Text.solid v.marker = v.marker ∧
    substance .start [v.marker] = ⟨v.marker.map (⟨·, .lineComment, false⟩), [], 0, false⟩ := by
  obtain ⟨x, e, hone, hsolid⟩ : ∃ x, v.marker = '/' :: '/' :: x ∧ Text.OneLine x ∧
      Text.solid ('/' :: '/' :: x) = '/' :: '/' :: x := by
    cases v <;> exact ⟨_, rfl, by decide, by decide⟩
  rw [e]
  refine ⟨fun k => ?_, hsolid, ?_⟩
  · rcases List.mem_cons.mp k with k | k
    · exact absurd k (by decide)
    · rcases List.mem_cons.mp k with k | k
      · exact absurd k (by decide)
      · exact hone k
  · rw [show Mode.start = .code false from rfl, substance_comment_line hone, hsolid]

/-- A text that may stand for another with a marker in front. -/
structure KeepsBehind (strict : Prop) (lead new old : Text) : Prop where
  solid : Text.solid new = lead ++ Text.solid old
  substance (h : strict) : substance .start (Text.lines new) =
    ⟨lead.map (⟨·, .lineComment, false⟩), [], 0, false⟩ ++ substance .start (Text.lines old)

theorem substance_nil_append (s : Substance) : (⟨[], [], 0, false⟩ : Substance) ++ s = s := by
  rw [Substance.append_eq, List.nil_append, List.nil_append, Nat.zero_add]

theorem Keeps.behind {strict : Prop} {new old : Text} (h : Keeps strict new old) :
    KeepsBehind strict [] new old :=
  ⟨h.solid, fun hs => (h.substance hs).trans (substance_nil_append _).symm⟩

theorem Keeps.transBehind {strict : Prop} {lead a b c : Text} (h₁ : Keeps strict a b)
    (h₂ : KeepsBehind strict lead b c) :
    KeepsBehind strict lead a c :=
  ⟨h₁.solid.trans h₂.solid, fun hs => (h₁.substance hs).trans (h₂.substance hs)⟩

theorem keepsBehind_marker (strict : Prop) (v : ScriptVersion) (t : Text) :
    KeepsBehind strict v.marker (v.marker ++ '\n' :: t) t := by
  obtain ⟨hone, hsolid, hsub⟩ := marker_line v
  refine ⟨?_, fun _ => ?_⟩
  · rw [Text.solid_append, Text.solid_newline_cons, hsolid]
  · rw [Text.lines_append_newline hone, substance_cons, hsub]
    rfl

theorem keepsBehind_syncVersionComment (fallback : ScriptVersion) (options : FormatOptions)
    (strict : Prop) (script : Text) :
    KeepsBehind strict (insertedMarker fallback options script)
      (stageIf options.updateVersionComment (syncVersionComment fallback)
        (Text.normalizeBreaks script)).text
      (Text.normalizeBreaks script) := by
  rw [insertedMarker, stageIf]
  cases options.updateVersionComment with
  | false => exact (keeps_self _).behind
  | true =>
    simp only [Bool.true_and, Bool.not_eq_true', if_true]
    cases h : statesVersion (Text.normalizeBreaks script) with
    | true => exact (syncVersionComment_keeps fallback strict h).behind
    | false =>
      rw [syncVersionComment_inserts fallback h]
      exact keepsBehind_marker strict fallback _

theorem keeps_stageIf {strict : Prop} {stage : Text → Staged}
    (h : ∀ t, Keeps strict (stage t).text t) (wanted : Bool) (t : Text) :
    Keeps strict (stageIf wanted stage t).text t := by
  cases wanted with
  | false => exact keeps_self t
  | true => exact h t

theorem normalizeLineEndings_text (t : Text) :
    (normalizeLineEndings t).text = Text.normalizeBreaks t := by
  rw [normalizeLineEndings]
  split
  · rfl
  · rename_i h
    exact (Text.normalizeBreaks_of_not_mem fun m => h (List.contains_iff_mem.mpr m)).symm

theorem keepsBehind_format (fallback : ScriptVersion) (options : FormatOptions) (script : Text) :
    KeepsBehind (options.spacesAroundOperators = true) (insertedMarker fallback options script)
      (format fallback options script).formatted (Text.normalizeBreaks script) := by
  rw [format]
  simp only [normalizeLineEndings_text]
  refine (keeps_stageIf (keeps_alignComments _) _ _).transBehind ?_
  refine (keeps_stageIf (keeps_collapseBlankLines _) _ _).transBehind ?_
  refine (keeps_indentLines options _).transBehind ?_
  refine (keeps_stageIf (keeps_moveBraces _) _ _).transBehind ?_
  exact keepsBehind_syncVersionComment fallback options _ script

theorem bracketCounts_comment (stack : List Bracket) (t : Text) (cs : List Cell) :
    bracketCounts stack (t.map (⟨·, .lineComment, false⟩) ++ cs) = bracketCounts stack cs := by
  induction t with
  | nil => rfl
  | cons c t ih =>
    rw [List.map_cons, List.cons_append, bracketCounts]
    exact ih

/-- Formatting only moves white space: apart from an inserted marker the solid characters stay, and
with spaces around operators and newlines as the only line breaks they keep their regions, the
closed literals and the imbalance. -/
theorem format_moves_white_space_only (fallback : ScriptVersion) (options : FormatOptions)
    (script : Text) :
    Text.solid (format fallback options script).formatted =
      insertedMarker fallback options script ++ Text.solid script ∧
      (options.spacesAroundOperators = true → '\r' ∉ script →
        solidCells (cells (format fallback options script).formatted) =
            (insertedMarker fallback options script).map (⟨·, .lineComment, false⟩) ++
              solidCells (cells script) ∧
          closedLiterals (format fallback options script).formatted = closedLiterals script ∧
          structuralImbalance (format fallback options script).formatted =
            structuralImbalance script) := by
  have keeps := keepsBehind_format fallback options script
  refine ⟨keeps.solid.trans (by rw [Text.solid_normalizeBreaks]), fun ho hcr => ?_⟩
  have hsub := keeps.substance ho
  rw [Text.normalizeBreaks_of_not_mem hcr] at hsub
  generalize (format fallback options script).formatted = formatted at hsub
  generalize insertedMarker fallback options script = lead at hsub ⊢
  refine ⟨?_, ?_, ?_⟩
  · rw [cells, cells, ← substance_solid rfl, ← substance_solid rfl, hsub]
    rfl
  · rw [closedLiterals, closedLiterals, cells, cells, ← substance_literals rfl,
      ← substance_literals rfl, hsub]
    rfl
  · rw [structuralImbalance_eq, structuralImbalance_eq, hsub, Substance.imbalance,
      Substance.append_eq]
    simp only [bracketCounts_comment, Nat.zero_add]
    rfl

/-- Two slashes with a blank between them do not become a comment, and a quote behind a backslash
stays where it is. -/
theorem format_moves_white_space_only_slashes :
    FormatOptions.standard.spacesAroundOperators = true ∧
    '\r' ∉ "f( a / /b , \\ \"x  y\" ) // c ".toList ∧
      closedLiterals (format .v5 .standard "f( a / /b , \\ \"x  y\" ) // c ".toList).formatted =
        closedLiterals "f( a / /b , \\ \"x  y\" ) // c ".toList :=
  ⟨rfl, by decide, ((format_moves_white_space_only .v5 .standard
    "f( a / /b , \\ \"x  y\" ) // c ".toList).2 rfl
    (by decide)).2.1⟩

end PineTools.Layout
