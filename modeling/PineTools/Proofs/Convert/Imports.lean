import PineTools.Proofs.Construct.LineByLine
import PineTools.Proofs.Construct.Statements
import PineTools.Proofs.Validate.Noninterference
import PineTools.Proofs.Version.Markers

namespace PineTools.Convert

open Reader

def readsImport (tables : RenameTables Text) (line : ScriptLine) : Bool :=
  ((importStatement : Pattern Cell Unit).findAll line.cells).any fun m =>
    Text.strip (writtenText m.glyphs) == Text.strip tables.defaultImport

theorem cutLines_scriptLines (t : Text) :
    cutLines (cells t) = (scriptLines t).map ScriptLine.cells :=
  (cutLines_cells .code (cells t)).symm

theorem line_of_import (tables : RenameTables Text) (t : Text) :
    (((importStatement : Pattern Cell Unit).findAll (cells t)).find? fun m =>
      Text.strip (writtenText m.glyphs) == Text.strip tables.defaultImport).map
        (fun m => Text.lineAt t m.start - 1) =
        (scriptLines t).findIdx? (readsImport tables) := by
  have h := (@lineWise_importStatement Cell _).find?_line
    (fun gs _ => Text.strip (writtenText gs) == Text.strip tables.defaultImport) (cells t)
  rw [cutLines_scriptLines, List.findIdx?_map] at h
  have hline (i : Nat) : Text.lineAt t i - 1 = (seenText ((cells t).take i)).count '\n' := by
    have hmask : seenText ((cells t).take i) = (mask t).take i := List.map_take
    rw [hmask, ← lineAt_mask, Text.lineAt, Nat.add_sub_cancel]
  simp only [hline]
  exact h

theorem dropImport_eq (tables : RenameTables Text) (t : Text) : dropImport tables t =
    match (scriptLines t).findIdx? (readsImport tables) with
    | none => t
    | some i =>
      if ((Text.lines t)[i]?.map Text.strip) == some (Text.strip tables.defaultImport) then
        Text.unlines ((Text.lines t).eraseIdx i)
      else t := by
  rw [← line_of_import, dropImport]
  cases (((importStatement : Pattern Cell Unit).findAll (cells t)).find? fun m =>
    Text.strip (writtenText m.glyphs) == Text.strip tables.defaultImport) <;> rfl

theorem exists_code_of_import {line : ScriptLine} (hline : line.IsRead) {m : Match Cell Unit}
    (hm : m ∈ (importStatement : Pattern Cell Unit).findAll line.cells) :
    ∃ c ∈ line.cells, c.region = .code := by
  obtain ⟨a, rest, hcells, -, happ⟩ :=
    Pattern.applies_of_mem_findAll (@lineWise_importStatement Cell _).advances hm
  obtain ⟨-, happ⟩ := Pattern.atLineStart_eq_some.mp happ
  obtain ⟨indent, rest₁, hindent, happ⟩ := discard_bind_eq_some.mp happ
  obtain ⟨keyword, rest₂, hkeyword, -⟩ := discard_bind_eq_some.mp happ
  obtain ⟨e, -⟩ := takes_run _ hindent
  obtain ⟨e', hseen⟩ := exactly_eq_some.mp hkeyword
  cases keyword with
  | nil => cases hseen
  | cons x keyword =>
    have hmem : x ∈ line.cells := by
      rw [hcells, e, e']
      exact List.mem_append_right a (List.mem_append_right indent List.mem_cons_self)
    have hx : x.masked = 'i' := (List.cons.inj hseen).1
    rw [hline.cells_eq] at hmem
    refine ⟨x, hline.cells_eq ▸ hmem, ?_⟩
    refine (code_of_masked hmem ?_ ?_ ?_ ?_).1
    · rw [hx]; decide
    · rw [hx]; decide
    · rw [hx]; decide
    · rw [hx]
      rintro (_ | _) <;> decide

theorem readsImport_marker (tables : RenameTables Text) (v : ScriptVersion) (inComment : Bool) :
    readsImport tables (readLine inComment v.marker) = false := by
  refine Bool.eq_false_iff.mpr fun h => ?_
  obtain ⟨m, hm, -⟩ := List.any_eq_true.mp h
  obtain ⟨c, hc, hcode⟩ :=
    exists_code_of_import (ScriptLine.isRead_readLine inComment (oneLine_marker v)) hm
  exact (readLine_marker v inComment).1 c hc hcode

variable {v : ScriptVersion} {t : Text} {before after : List Text}

theorem importIndex_eq {l : Text} (hbefore : ∀ l' ∈ before, isMarkerLine l' = false)
    (hl : isMarkerLine l = true) :
    importIndex (before ++ l :: after) = before.length + 1 := by
  have hnone : before.findIdx? isMarkerLine = none := List.findIdx?_eq_none_iff.mpr hbefore
  have hfind : ((before ++ l :: after).findIdx? fun line => (marker.readAt? line).isSome) =
      some before.length := by
    change (before ++ l :: after).findIdx? isMarkerLine = _
    rw [List.findIdx?_append, hnone, List.findIdx?_cons, hl]
    simp
  rw [importIndex, hfind]

theorem addImport_of_some {tables : RenameTables Text} (h : importStatement.occursIn (mask t) =
    true) : addImport tables t = t := by
  rw [addImport, if_pos h]

theorem lines_addImport_of_none (tables : RenameTables Text) {l : Text}
    (h : Text.lines t = before ++ l :: after) (hbefore : ∀ l' ∈ before, isMarkerLine l' = false)
    (hl : isMarkerLine l = true) (hnone : importStatement.occursIn (mask t) = false) :
    Text.lines (addImport tables t) = before ++
      l :: (Text.lines tables.defaultImport ++ after) := by
  have hone : ∀ l' ∈ before ++ l :: after, Text.OneLine l' :=
    fun l' hl' => Text.oneLine_of_mem_lines (h ▸ hl')
  have hsplit : before ++ l :: after = (before ++ [l]) ++ after := by
    rw [List.append_assoc, List.singleton_append]
  have hlen : before.length + 1 = (before ++ [l]).length := by
    rw [List.length_append, List.length_singleton]
  rw [addImport, if_neg (Bool.eq_false_iff.mp hnone)]
  dsimp only
  rw [h, importIndex_eq hbefore hl]
  rw [hsplit, List.forall_mem_append] at hone
  rw [hsplit, hlen, List.take_left' rfl, List.drop_left' rfl,
    Text.lines_unlines_insert hone.1 hone.2]
  rw [List.append_assoc, List.singleton_append]

theorem lines_addImport (tables : RenameTables Text) {l : Text}
    (h : Text.lines t = before ++ l :: after) (hbefore : ∀ l' ∈ before, isMarkerLine l' = false)
    (hl : isMarkerLine l = true) :
    addImport tables t = t ∨
      Text.lines (addImport tables t) = before ++
        l :: (Text.lines tables.defaultImport ++ after) := by
  cases hfound : importStatement.occursIn (mask t) with
  | true => exact .inl (addImport_of_some hfound)
  | false => exact .inr (lines_addImport_of_none tables h hbefore hl hfound)

theorem marked_addImport (tables : RenameTables Text) (h : Marked v t) :
    Marked v (addImport tables t) := by
  obtain ⟨before, after, e, hbefore, hl⟩ := h
  rcases lines_addImport tables e hbefore hl with e' | e'
  · rw [e']
    exact ⟨before, after, e, hbefore, hl⟩
  · exact ⟨before, _, e', hbefore, hl⟩

theorem readLines_length (inComment : Bool) (ls : List Text) :
    (readLines (.ofLine inComment) ls).length = ls.length := by
  have h := congrArg List.length (readLines_texts inComment ls)
  rwa [List.length_map] at h

theorem getElem?_readLines (inComment : Bool) (a : List Text) (l : Text) (b : List Text) :
    (readLines (.ofLine inComment) (a ++ l :: b))[a.length]? =
      some (readLine (leavesAll inComment a) l) := by
  rw [readLines_append, readLines_cons, List.getElem?_append_right (by rw [readLines_length]),
    readLines_length, Nat.sub_self]
  rfl

theorem ne_marker_of_import {tables : RenameTables Text}
    (h : Text.lines t = before ++ v.marker :: after) {i : Nat}
    (hi : (scriptLines t).findIdx? (readsImport tables) = some i) : i ≠ before.length := by
  rintro rfl
  obtain ⟨hlt, hread, -⟩ := List.findIdx?_eq_some_iff_getElem.mp hi
  have hget : (scriptLines t)[before.length]? =
      some (readLine (leavesAll false before) v.marker) := by
    rw [scriptLines_readLines, h, getElem?_readLines]
  rw [List.getElem?_eq_getElem hlt, Option.some_inj] at hget
  rw [hget, readsImport_marker] at hread
  cases hread

theorem marked_dropImport (tables : RenameTables Text) (h : Marked v t) :
    Marked v (dropImport tables t) := by
  obtain ⟨before, after, e, hbefore, hl⟩ := h
  have hmarked : Marked v t := ⟨before, after, e, hbefore, hl⟩
  rw [dropImport_eq]
  cases hfind : (scriptLines t).findIdx? (readsImport tables) with
  | none => exact hmarked
  | some i =>
    have hne := ne_marker_of_import e hfind
    have hone {ls : List Text} (hls : ∀ l ∈ ls, l ∈ Text.lines t) : ∀ l ∈ ls, Text.OneLine l :=
      fun l hl => Text.oneLine_of_mem_lines (hls l hl)
    have hsub : ∀ l ∈ (Text.lines t).eraseIdx i, l ∈ Text.lines t :=
      fun l hl => List.mem_of_mem_eraseIdx hl
    change Marked v (if _ then _ else _)
    split
    case isFalse => exact hmarked
    case isTrue =>
      rcases Nat.lt_or_gt_of_ne hne with hlt | hgt
      · have herase : (Text.lines t).eraseIdx i = before.eraseIdx i ++ v.marker :: after := by
          rw [e, List.eraseIdx_append_of_lt_length hlt]
        refine ⟨before.eraseIdx i, after, ?_, fun l' hl' =>
          hbefore l' (List.mem_of_mem_eraseIdx hl'), hl⟩
        rw [← herase, Text.lines_unlines (by rw [herase]; simp) (hone hsub)]
      · obtain ⟨j, hj⟩ : ∃ j, i - before.length = j + 1 := ⟨i - before.length - 1, by omega⟩
        have herase : (Text.lines t).eraseIdx i = before ++ v.marker :: after.eraseIdx j := by
          rw [e, List.eraseIdx_append_of_length_le (Nat.le_of_lt hgt), hj, List.eraseIdx_cons_succ]
        refine ⟨before, after.eraseIdx j, ?_, hbefore, hl⟩
        rw [← herase, Text.lines_unlines (by rw [herase]; simp) (hone hsub)]

end PineTools.Convert
