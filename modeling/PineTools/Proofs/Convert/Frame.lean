import Mathlib.Tactic.Choose
import PineTools.Proofs.Convert.Names
import PineTools.Proofs.Convert.Respelt
import PineTools.Proofs.Convert.Restoring
import PineTools.Proofs.Repair.Comments

/-! The comments and literals of a script around its first marker. Renamed calls, respelt lines and
an import that is dropped leave all of them as they are, whatever marker stands in that place. So
does an import that is added, unless the marker stands in a block comment, where the import is one
more line of the comment. -/
namespace PineTools

open Mode

namespace Convert

variable {tables : RenameTables Text} {t t' : Text} {u v : ScriptVersion} {inComment : Bool}
  {noted : ScriptVersion → List Text}

/-- A script around its first marker: whether the marker stands in a block comment, and what the
comments and literals are with each marker in that place. -/
def Framed (inComment : Bool) (v : ScriptVersion) (noted : ScriptVersion → List Text) (t : Text) :
    Prop :=
  ∃ before after, Text.lines t = before ++ v.marker :: after ∧
    (∀ l ∈ before, isMarkerLine l = false) ∧
    leavesAll false before = inComment ∧ ∀ w : ScriptVersion,
    notes (Text.unlines (before ++ w.marker :: after)) = noted w

theorem Framed.notes_eq (h : Framed inComment v noted t) : notes t = noted v := by
  obtain ⟨before, after, e, -, -, hnotes⟩ := h
  rw [← hnotes, ← e, Text.unlines_lines]

theorem Framed.setMarker (h : Framed inComment u noted t) (v : ScriptVersion) :
    Framed inComment v noted (Convert.setMarker v t) := by
  obtain ⟨before, after, e, hbefore, hopen, hnotes⟩ := h
  exact ⟨before, after, lines_setMarker_at e hbefore (isMarkerLine_marker u) v, hbefore,
    hopen, hnotes⟩

theorem Framed.rewritten (h : Framed inComment v noted t) {g : ScriptLine → Text}
    (hg : KeepsMarkers g) (e : Text.lines t' = rewriteLines g false (Text.lines t))
    (hrevises : ∀ ls : List Text, (∀ l ∈ ls, Text.OneLine l) → ∃ swaps,
      Revises .start (Text.unlines ls) (Text.unlines (rewriteLines g false ls)) swaps ∧ ∀ s ∈ swaps,
        notes s.new = notes s.old) :
    Framed inComment v noted t' := by
  obtain ⟨before, after, hlines, hbefore, hopen, hnotes⟩ := h
  obtain ⟨hone, hone'⟩ := oneLine_of_lines hlines
  rw [hlines, hg.rewriteLines_marker] at e
  refine ⟨_, _, e, hg.not_marker_lines hone hbefore, ?_, fun w => ?_⟩
  · obtain ⟨swaps, hrev, -⟩ := hrevises before hone
    exact hrev.leavesAll_rewriteLines.trans hopen
  · have hall : ∀ l ∈ before ++ w.marker :: after, Text.OneLine l :=
      List.forall_mem_append.mpr ⟨hone, List.forall_mem_cons.mpr ⟨oneLine_marker w, hone'⟩⟩
    obtain ⟨swaps, hrev, hswaps⟩ := hrevises _ hall
    rw [← hg.rewriteLines_marker, ← hnotes]
    exact hrev.notesFrom_eq hswaps atNote_start

section Names

theorem Framed.renameCalls (h : Framed inComment v noted t) {old new : Text}
    (hold : Repair.IsName old) (hnew : Repair.IsName new) :
    Framed inComment v noted (Convert.renameCalls old new t) := by
  have hrewrites := rewrites_renameCalls hold hnew
  refine h.rewritten hrewrites.keepsMarkers (hrewrites.lines_substitute t) fun ls hls => ?_
  cases ls with
  | nil => exact ⟨[], .done _, fun _ hs => absurd hs List.not_mem_nil⟩
  | cons l ls =>
    have hlines := hrewrites.lines_substitute (Text.unlines (l :: ls))
    rw [Text.lines_unlines (List.cons_ne_nil l ls) hls] at hlines
    rw [← hlines, Text.unlines_lines]
    refine ⟨_, Repair.renameCalls_revises hold hnew _, List.forall_mem_map.mpr fun _ _ => ?_⟩
    rw [notes_tame hold.tame, notes_tame hnew.tame]

theorem Framed.renameText (h : Framed inComment v noted t) {rs : List Renaming}
    (hrs : ∀ r ∈ rs, r.Plain) :
    Framed inComment v noted (Convert.renameText rs t) := by
  induction rs generalizing t with
  | nil => exact h
  | cons r rs ih =>
    obtain ⟨hr, hrs⟩ := List.forall_mem_cons.mp hrs
    refine ih (t := r.onText t) ?_ hrs
    rw [Renaming.onText]
    split
    · exact h
    · exact h.renameCalls hr.1.1 hr.2.1

theorem Framed.modernizeNames (h : Framed inComment v noted t) (htables : Invertible tables) :
    Framed inComment v noted (Convert.modernizeNames tables t) := by
  obtain ⟨masked, e⟩ := modernizeNames_eq tables t
  rw [e]
  exact h.renameText (htables.renamings masked).1

theorem Framed.restoreNames (h : Framed inComment v noted t) (htables : Invertible tables) :
    Framed inComment v noted (Convert.restoreNames tables t) := by
  rw [restoreNames_eq tables [] t]
  exact h.renameText (List.forall_mem_map.mpr fun r hr => ((htables.renamings []).1 r hr).back)

end Names

section Lines

theorem Framed.respelt (h : Framed inComment v noted t) {g : ScriptLine → Text}
    (hg : KeepsMarkers g) (e : Text.lines t' = rewriteLines g false (Text.lines t))
    (hrespells : ∀ line : ScriptLine, line.IsRead → ∃ swaps, Respells line (g line) swaps ∧
      ∀ s ∈ swaps, notes s.new = notes s.old) :
    Framed inComment v noted t' := by
  choose! swaps hrespells hswaps using hrespells
  refine h.rewritten hg e fun ls hls => ⟨_, revises_unlines hrespells hls, fun s hs => ?_⟩
  obtain ⟨line, hline, hs⟩ := List.mem_flatMap.mp hs
  exact hswaps line (isRead_of_mem_readLines hls hline).1 s hs

theorem Framed.replaceKeyword (h : Framed inComment v noted t) {old new : String}
    (hold : Repair.IsName old.toList) (hnew : Repair.IsName new.toList) :
    Framed inComment v noted (Convert.replaceKeyword old new t) := by
  have hrewrites := rewrites_replaceKeyword hold hnew
  refine h.respelt hrewrites.keepsMarkers (hrewrites.lines_substitute t) fun line hline => ?_
  rcases respells_keywordLine hold hnew hline with ⟨-, hrespells⟩ | hrespells
  · exact ⟨_, hrespells, fun _ hs => absurd hs List.not_mem_nil⟩
  · refine ⟨_, hrespells, List.forall_mem_singleton.mpr ?_⟩
    rw [notes_tame hold.tame, notes_tame hnew.tame]

theorem Framed.freezeVariables (h : Framed inComment v noted t) :
    Framed inComment v noted (Convert.freezeVariables t) :=
  h.respelt (rewrites_freezeVariables (isReassigned t)).keepsMarkers
    ((rewrites_freezeVariables (isReassigned t)).lines_substitute t)
    fun _ hline => respells_freezeLine (isReassigned t) hline

theorem Framed.addMethod (h : Framed inComment v noted t) :
    Framed inComment v noted (Convert.addMethod t) :=
  h.respelt rewrites_addMethod.keepsMarkers (rewrites_addMethod.lines_substitute t) fun _ hline =>
    respells_markLine hline

end Lines

section Imports

theorem notes_unlines_tame {l : Text} (hl : ∀ c ∈ l, Tame c) (ls : List Text) :
    notes (Text.unlines (l :: ls)) = notes (Text.unlines ls) := by
  by_cases hnil : ls = []
  · subst hnil
    exact notes_tame hl
  · rw [Text.unlines_cons hnil, (notes_tame_append hl _).1]
    exact (notes_tame_append (a := ['\n']) (by decide) _).1

theorem leaves_tame {l : Text} (hl : ∀ c ∈ l, Tame c) : (readLine false l).leaves l = false := by
  rw [ScriptLine.leaves, ScriptLine.readLine_inComment]
  have hafter : (Mode.ofLine false).after none l = .start := after_tame hl none
  rw [hafter]
  rfl

/-- A line without notes that is erased where no block comment goes on. -/
theorem notes_erase {a b : List Text} {l : Text} (ha : leavesAll false a = false)
    (hl : ∀ c ∈ l, Tame c) :
    notes (Text.unlines (a ++ l :: b)) = notes (Text.unlines (a ++ b)) ∧
    leavesAll false (a ++ l :: b) = leavesAll false (a ++ b) := by
  rw [notes_unlines_append ha, notes_unlines_append ha, notes_unlines_tame hl, leavesAll_append,
    leavesAll_append, ha, leavesAll_cons, leaves_tame hl]
  exact ⟨rfl, rfl⟩

/-- The default import is a line of its own without comments or literals. -/
structure TameImport (tables : RenameTables Text) : Prop where
  oneLine : Text.OneLine tables.defaultImport
  tame : ∀ c ∈ tables.defaultImport, Tame c

theorem Framed.addImport (h : Framed false v noted t) (himport : TameImport tables) :
    Framed false v noted (Convert.addImport tables t) := by
  have hframed := h
  obtain ⟨before, after, e, hbefore, hopen, hnotes⟩ := h
  rcases lines_addImport tables e hbefore (isMarkerLine_marker v) with e' | e'
  · rw [e']
    exact hframed
  · refine ⟨before, _, e', hbefore, hopen, fun w => ?_⟩
    have hclosed : leavesAll false (before ++ [w.marker]) = false := by
      rw [leavesAll_append, hopen]
      exact (readLine_marker w false).2
    have herase := (notes_erase (b := after) hclosed himport.tame).1
    rw [List.append_assoc, List.append_assoc] at herase
    rw [Text.lines_of_oneLine himport.oneLine]
    exact herase.trans (hnotes w)

theorem region_of_block {u : Text} (hu : '/' ∉ u) :
    ∀ c ∈ cellsFrom .block u, c.region = .blockComment := by
  induction u with
  | nil => exact List.forall_mem_nil _
  | cons c u ih =>
    have hahead : u.head? ≠ some '/' :=
      fun e => hu (List.mem_cons_of_mem c (List.mem_of_mem_head? e))
    have hstep : Mode.block.step c u.head? = (⟨c, .blockComment, false⟩, .block) := by
      rw [step, if_neg fun h => hahead h.2]
    rw [cellsFrom, hstep]
    exact List.forall_mem_cons.mpr ⟨rfl, ih (List.not_mem_of_not_mem_cons hu)⟩

theorem TameImport.tame_line (himport : TameImport tables) {l : Text}
    (hl : ∀ c ∈ l, Text.isSpace c = true ∨ c ∈ tables.defaultImport) : ∀ c ∈ l, Tame c :=
  fun c hc => (hl c hc).elim tame_of_white (himport.tame c)

/-- Nothing is dropped, or a line that is the default import and stands outside comments. -/
theorem dropImport_cases (himport : TameImport tables) (t : Text) :
    Convert.dropImport tables t = t ∨
    ∃ a l b, Text.lines t = a ++ l :: b ∧ Convert.dropImport tables t = Text.unlines (a ++ b) ∧
      leavesAll false a = false ∧ ∀ c ∈ l, Text.isSpace c = true ∨ c ∈ tables.defaultImport := by
  rw [dropImport_eq]
  cases hfind : (scriptLines t).findIdx? (readsImport tables) with
  | none => exact .inl rfl
  | some i =>
    dsimp only
    split
    case isFalse => exact .inl rfl
    case isTrue hstrip =>
      obtain ⟨l, hget, hl⟩ := Option.map_eq_some_iff.mp (beq_iff_eq.mp hstrip)
      obtain ⟨hlt, rfl⟩ := List.getElem?_eq_some_iff.mp hget
      have hsplit : Text.lines t = (Text.lines t).take i ++ (Text.lines t)[i] :: (Text.lines t).drop
          (i + 1) := by
        rw [List.getElem_cons_drop, List.take_append_drop]
      have himported : ∀ c ∈ (Text.lines t)[i], Text.isSpace c = true ∨ c ∈ tables.defaultImport :=
        fun c hc => by
        rcases Text.white_or_mem_strip hc with hwhite | hmem
        · exact .inl hwhite
        · rw [hl] at hmem
          exact .inr ((List.dropWhile_sublist _).mem (Text.mem_of_mem_trimRight hmem))
      refine .inr ⟨_, _, _, hsplit, congrArg _ (List.eraseIdx_eq_take_drop_succ ..),
        Bool.eq_false_iff.mpr fun hopen => ?_, himported⟩
      -- The line has code on it, so it does not stand in a block comment.
      obtain ⟨hlt', hread, -⟩ := List.findIdx?_eq_some_iff_getElem.mp hfind
      have hline : (scriptLines t)[i]? = some (readLine true (Text.lines t)[i]) := by
        have hline := getElem?_readLines false ((Text.lines t).take i) (Text.lines t)[i]
          ((Text.lines t).drop (i + 1))
        rw [← hsplit, List.length_take_of_le (Nat.le_of_lt hlt), hopen,
          ← scriptLines_readLines] at hline
        exact hline
      rw [List.getElem?_eq_getElem hlt', Option.some_inj] at hline
      rw [hline] at hread
      obtain ⟨m, hm, -⟩ := List.any_eq_true.mp hread
      have hone : Text.OneLine (Text.lines t)[i] := Text.oneLine_of_mem_lines (List.getElem_mem hlt)
      obtain ⟨c, hc, hcode⟩ := exists_code_of_import (ScriptLine.isRead_readLine true hone) hm
      rw [region_of_block (fun k => (himport.tame_line himported '/' k).1 rfl) c hc] at hcode
      cases hcode

theorem Framed.dropImport (h : Framed inComment v noted t) (himport : TameImport tables) :
    Framed inComment v noted (Convert.dropImport tables t) := by
  have hframed := h
  obtain ⟨before, after, e, hbefore, hopen, hnotes⟩ := h
  rcases dropImport_cases himport t with e' | ⟨a, l, b, hlines, e', ha, himported⟩
  · rw [e']
    exact hframed
  · have hl := himport.tame_line himported
    have hmarker : v.marker ≠ l := fun k => (hl '/' (k ▸ by cases v <;> decide)).1 rfl
    have hone {ls : List Text} (hls : ∀ k ∈ ls, k ∈ a ++ l :: b) (hne : ls ≠ []) :
        Text.lines (Text.unlines ls) = ls :=
      Text.lines_unlines hne fun k hk => Text.oneLine_of_mem_lines (hlines ▸ hls k hk)
    have hsub : ∀ k ∈ a ++ b, k ∈ a ++ l :: b :=
      fun k hk => (List.Sublist.append_left (List.sublist_cons_self l b) a).mem hk
    rcases List.append_eq_append_iff.mp (e.symm.trans hlines) with ⟨c, rfl, hc⟩ | ⟨c, rfl, hc⟩
    · cases c with
      | nil => exact absurd (List.cons.inj hc).1 hmarker
      | cons m c =>
        obtain ⟨rfl, rfl⟩ := List.cons.inj hc
        refine ⟨before, c ++ b, ?_, hbefore, hopen, fun w => ?_⟩
        · rw [e', hone hsub (by simp), List.append_assoc, List.cons_append]
        · have hclosed : leavesAll false (before ++ w.marker :: c) = false := by
            rw [leavesAll_append, leavesAll_cons, (readLine_marker v _).2] at ha
            rw [leavesAll_append, leavesAll_cons, (readLine_marker w _).2, ha]
          have herase := (notes_erase (b := b) hclosed hl).1
          rw [List.append_assoc, List.append_assoc] at herase
          exact herase.symm.trans (hnotes w)
    · cases c with
      | nil => exact absurd (List.cons.inj hc).1.symm hmarker
      | cons m c =>
        obtain ⟨rfl, rfl⟩ := List.cons.inj hc
        refine ⟨a ++ c, after, ?_, fun k hk => hbefore k ?_, ?_, fun w => ?_⟩
        · rw [e', hone hsub (by simp), List.append_assoc]
          rfl
        · exact (List.Sublist.append_left (List.sublist_cons_self l c) a).mem hk
        · exact (notes_erase ha hl).2.symm.trans hopen
        · have herase := (notes_erase (b := c ++ w.marker :: after) ha hl).1
          have hnoted := hnotes w
          rw [List.append_assoc] at hnoted ⊢
          exact herase.symm.trans hnoted

end Imports

end Convert

end PineTools
