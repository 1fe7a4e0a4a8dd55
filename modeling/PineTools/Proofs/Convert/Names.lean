import PineTools.Proofs.Construct.CalledNames
import PineTools.Proofs.Convert.Targets

/-! Names in conversions. Renaming calls changes nothing but the spelling of called names, in the
script and in its cells alike, so names that moved into a namespace move back, and the script is
what it was. -/
namespace PineTools.Convert

open Mode

section RenameCalls

variable {name new : Text}

theorem called_in_code (hname : Repair.IsName name) {before : Option Char}
    {taken gs : List Cell} {u : Unit} (happ : callOf name before (taken ++ gs) = some (u, gs))
    {m : Mode} (hread : cellsFrom m (writtenText (taken ++ gs)) = taken ++ gs) : writtenText taken =
      name ∧ ∃ k, m = .code k := by
  obtain ⟨hwritten, hcode⟩ := hname.called happ (a := []) hread
  refine ⟨hwritten, ?_⟩
  cases taken with
  | nil => exact absurd hwritten.symm hname.1
  | cons x taken =>
    obtain ⟨hregion, hword⟩ := hcode x List.mem_cons_self
    exact mode_at_code (a := []) hread (not_blank_of_isWordOrDot hword).2 hregion

/-- A glyph is read the same before a called name and before the name written in its place. -/
theorem step_before_respelt (hname : Repair.IsName name) (hnew : Repair.IsName new)
    {before : Option Char} {gs : List Cell} {segs : List (Segment Cell Unit)}
    (h : Pattern.Segmented (callOf name) before gs segs) {m : Mode} {c : Char}
    (hgs : cellsFrom (m.step c (writtenText gs).head?).2 (writtenText gs) = gs) :
    m.step c (rebuild Cell.char (fun _ _ => new) none segs).1.head? =
      m.step c (writtenText gs).head? := by
  cases h with
  | done => rfl
  | plain => rfl
  | found hne happ =>
    obtain ⟨-, k, hk⟩ := called_in_code hname happ hgs
    have hnone := step_none_of_code hk
    rw [← hnone] at hk
    cases new with
    | nil => exact absurd rfl hnew.1
    | cons d new =>
      obtain ⟨htame, hstar⟩ := Repair.tame_of_isWordOrDot (hnew.2 d List.mem_cons_self)
      exact (step_quiet_of_code hk ⟨htame.1, hstar⟩).trans hnone

theorem cellsFrom_respelt (hname : Repair.IsName name) (hnew : Repair.IsName new)
    {before : Option Char} {gs : List Cell} {segs : List (Segment Cell Unit)}
    (h : Pattern.Segmented (callOf name) before gs segs) {m : Mode}
    (hgs : cellsFrom m (writtenText gs) = gs) :
    cellsFrom m (rebuild Cell.char (fun _ _ => new) none segs).1 =
      segs.flatMap (Segment.respelt (new.map codeCell)) := by
  induction h generalizing m with
  | done => rfl
  | @plain before g gs segs _ rest ih =>
    obtain ⟨hg, hgs⟩ : (m.step g.char (writtenText gs).head?).1 = g ∧
        cellsFrom (m.step g.char (writtenText gs).head?).2 (writtenText gs) = gs :=
          List.cons.inj hgs
    change (m.step g.char (rebuild Cell.char (fun _ _ => new) none segs).1.head?).1 ::
      cellsFrom (m.step g.char (rebuild Cell.char (fun _ _ => new) none segs).1.head?).2 _ = _
    rw [step_before_respelt hname hnew rest hgs, hg, ih hgs]
    rfl
  | @found before taken gs v segs hne happ _ ih =>
    obtain ⟨hwritten, k, rfl⟩ := called_in_code hname happ hgs
    have hold := (read_tame hname.tame hname.1 k (writtenText gs)).1
    rw [← hwritten, ← writtenText_append, hgs] at hold
    have hlen : taken.length = ((writtenText taken).map codeCell).length := by
      rw [List.length_map, writtenText, List.length_map]
    have hrest := (List.append_inj hold hlen).2
    have htext : (rebuild Cell.char (fun _ _ => new) none (.found taken v :: segs)).1 =
        new ++ (rebuild Cell.char (fun _ _ => new) none segs).1 := rfl
    rw [htext, (read_tame hnew.tame hnew.1 k _).1, ih hrest.symm]
    rfl

theorem cells_renameCalls (hname : Repair.IsName name) (hnew : Repair.IsName new) (t : Text) :
    cells (renameCalls name new t) = mapCalls (renamed name (new.map codeCell)) (cells t) := by
  have hsegs :=
    Pattern.segmented_segments (@lineWise_callOf_name Cell _ name hname).advances (cells t)
  have hread : cellsFrom .start (writtenText (cells t)) = cells t := by
    rw [cells, writtenText_cellsFrom]
  exact (cellsFrom_respelt hname hnew hsegs hread).trans (segments_callOf hname _ _)

end RenameCalls

/-- One entry of a table of names. An entry is skipped where the script defines the function itself.
-/
structure Renaming where
  old : Text
  new : Text
  skipped : Bool

namespace Renaming

def onText (r : Renaming) (t : Text) : Text := if r.skipped then t else renameCalls r.old r.new t

def onName (r : Renaming) (u : List Cell) : List Cell := if r.skipped then u
    else renamed r.old (r.new.map codeCell) u

/-- The entry that leads back, which is never skipped. -/
def back (r : Renaming) : Renaming := ⟨r.new, r.old, false⟩

/-- Both names stand in code wherever they are shown. -/
def Plain (r : Renaming) : Prop := Repair.IsPlainName r.old ∧ Repair.IsPlainName r.new

theorem Plain.back {r : Renaming} (h : r.Plain) : r.back.Plain := ⟨h.2, h.1⟩

/-- A name that the entry looks for is changed, unless the entry is skipped. -/
theorem onName_old {r : Renaming} (hskip : r.skipped = false) {u : List Cell}
    (hu : seenText u = r.old) :
    r.onName u = r.new.map codeCell := by
  rw [onName, hskip, if_neg Bool.false_ne_true, renamed, if_pos hu]

theorem onName_other {r : Renaming} {u : List Cell} (hu : r.skipped = false → seenText u ≠ r.old) :
    r.onName u = u := by
  rw [onName]
  split
  case isTrue => rfl
  case isFalse hskip => exact if_neg (hu (Bool.not_eq_true _ ▸ hskip))

theorem spelling {r : Renaming} (h : r.Plain) : Spelling r.onName := by
  cases hskip : r.skipped with
  | true =>
    have hid : r.onName = id := funext fun u => if_pos hskip
    rw [hid]
    exact ⟨rfl, fun u hne hu => ⟨hne, hu⟩⟩
  | false =>
    have hnew : r.onName = renamed r.old (r.new.map codeCell) :=
      funext fun u => if_neg (by rw [hskip]; exact Bool.false_ne_true)
    rw [hnew]
    refine spelling_renamed h.1.1 ?_ fun g hg => ?_
    · rw [Ne, List.map_eq_nil_iff]
      exact h.2.1.1
    · obtain ⟨c, hc, rfl⟩ := List.mem_map.mp hg
      change Text.isWordOrDot (codeCell c).masked = true
      rw [codeCell_masked]
      exact h.2.1.2 c hc

theorem cells_onText {r : Renaming} (h : r.Plain) (t : Text) :
    cells (r.onText t) = mapCalls r.onName (cells t) := by
  cases hskip : r.skipped with
  | true =>
    have hid : r.onName = id := funext fun u => if_pos hskip
    rw [hid, mapCalls_id, onText, if_pos hskip]
  | false =>
    have hnot : ¬ r.skipped = true := by rw [hskip]; exact Bool.false_ne_true
    have hnew : r.onName = renamed r.old (r.new.map codeCell) := funext fun u => if_neg hnot
    rw [hnew, onText, if_neg hnot]
    exact cells_renameCalls h.1.1 h.2.1 t

theorem marked_onText {r : Renaming} (h : r.Plain) {v : ScriptVersion} {t : Text}
    (ht : Marked v t) : Marked v (r.onText t) := by
  rw [onText]
  split
  · exact ht
  · exact (rewrites_renameCalls h.1.1 h.2.1).marked ht

theorem onText_setMarker {r : Renaming} (h : r.Plain) {u : ScriptVersion} {t : Text}
    (ht : Marked u t) (v : ScriptVersion) :
    r.onText (setMarker v t) = setMarker v (r.onText t) := by
  rw [onText, onText]
  split
  · rfl
  · exact substitute_setMarker (rewrites_renameCalls h.1.1 h.2.1) ht v

end Renaming

/-- What becomes of a script whose names are changed by one entry after the other. -/
def renameText (rs : List Renaming) (t : Text) : Text := rs.foldl (fun t r => r.onText t) t

def renameName (rs : List Renaming) (u : List Cell) : List Cell :=
  rs.foldl (fun u r => r.onName u) u

section Lists

variable {rs : List Renaming} (hplain : ∀ r ∈ rs, r.Plain)
include hplain

theorem spelling_renameName : Spelling (renameName rs) := by
  induction rs with
  | nil => exact ⟨rfl, fun u hne hu => ⟨hne, hu⟩⟩
  | cons r rs ih =>
    obtain ⟨hr, hrs⟩ := List.forall_mem_cons.mp hplain
    exact (ih hrs).comp (Renaming.spelling hr)

theorem cells_renameText (t : Text) :
    cells (renameText rs t) = mapCalls (renameName rs) (cells t) := by
  induction rs generalizing t with
  | nil => exact (mapCalls_id _).symm
  | cons r rs ih =>
    obtain ⟨hr, hrs⟩ := List.forall_mem_cons.mp hplain
    change cells (renameText rs (r.onText t)) = mapCalls (renameName rs ∘ r.onName) (cells t)
    rw [ih hrs, Renaming.cells_onText hr, mapCalls_mapCalls (Renaming.spelling hr)]

theorem renameText_setMarker {u : ScriptVersion} {t : Text} (ht : Marked u t) (v : ScriptVersion) :
    renameText rs (setMarker v t) = setMarker v (renameText rs t) ∧ Marked u (renameText rs t) := by
  induction rs generalizing t with
  | nil => exact ⟨rfl, ht⟩
  | cons r rs ih =>
    obtain ⟨hr, hrs⟩ := List.forall_mem_cons.mp hplain
    obtain ⟨e, hmarked⟩ := ih hrs (Renaming.marked_onText hr ht)
    refine ⟨?_, hmarked⟩
    change renameText rs (r.onText (setMarker v t)) = _
    rw [Renaming.onText_setMarker hr ht, e]
    rfl

end Lists

def namesOf (rs : List Renaming) : List Text := rs.flatMap fun r => [r.old, r.new]

theorem mem_namesOf {rs : List Renaming} {r : Renaming} (hr : r ∈ rs) :
    r.old ∈ namesOf rs ∧ r.new ∈ namesOf rs :=
  ⟨List.mem_flatMap.mpr ⟨r, hr, List.mem_cons_self⟩,
    List.mem_flatMap.mpr ⟨r, hr, List.mem_cons_of_mem _ List.mem_cons_self⟩⟩

theorem renameName_of_ne {rs : List Renaming} {u : List Cell} (h : ∀ r ∈ rs, seenText u ≠ r.old) :
    renameName rs u = u := by
  induction rs with
  | nil => rfl
  | cons r rs ih =>
    obtain ⟨hr, hrs⟩ := List.forall_mem_cons.mp h
    change renameName rs (r.onName u) = u
    rw [Renaming.onName_other fun _ => hr, ih hrs]

theorem seenText_renameName (rs : List Renaming) (u : List Cell) :
    seenText (renameName rs u) = seenText u ∨ ∃ r ∈ rs, seenText (renameName rs u) = r.new := by
  induction rs generalizing u with
  | nil => exact .inl rfl
  | cons r rs ih =>
    change seenText (renameName rs (r.onName u)) = _ ∨ ∃ r' ∈ r :: rs,
      seenText (renameName rs (r.onName u)) = r'.new
    rcases ih (r.onName u) with e | ⟨r', hr', e⟩
    · rw [e]
      by_cases hmoved : r.skipped = false ∧ seenText u = r.old
      · rw [Renaming.onName_old hmoved.1 hmoved.2]
        exact .inr ⟨r, List.mem_cons_self, seenText_codeCells r.new⟩
      · rw [Renaming.onName_other fun hskip hu => hmoved ⟨hskip, hu⟩]
        exact .inl rfl
    · exact .inr ⟨r', List.mem_cons_of_mem r hr', e⟩

theorem renameName_back {rs : List Renaming} (hdistinct : (namesOf rs).Nodup) {u : List Cell}
    (hnew : ∀ r ∈ rs, seenText u ≠ r.new) (hold : ∀ r ∈ rs, seenText u = r.old →
      u = r.old.map codeCell) :
    renameName (rs.map Renaming.back) (renameName rs u) = u := by
  induction rs with
  | nil => rfl
  | cons r rs ih =>
    obtain ⟨hr, hrs⟩ := List.forall_mem_cons.mp hnew
    obtain ⟨hr', hrs'⟩ := List.forall_mem_cons.mp hold
    obtain ⟨hrold, hdistinct⟩ :=
      List.nodup_cons.mp (show (r.old :: r.new :: namesOf rs).Nodup from hdistinct)
    obtain ⟨hrnew, hdistinct⟩ := List.nodup_cons.mp hdistinct
    change renameName (rs.map Renaming.back) (r.back.onName (renameName rs (r.onName u))) = u
    by_cases hmoved : r.skipped = false ∧ seenText u = r.old
    · -- The name is changed here, and by no later entry.
      have hlater : renameName rs (r.new.map codeCell) = r.new.map codeCell :=
        renameName_of_ne fun r' hr' e => by
        rw [seenText_codeCells] at e
        exact hrnew (e ▸ (mem_namesOf hr').1)
      have hback : r.back.onName (r.new.map codeCell) = u :=
        (Renaming.onName_old rfl (seenText_codeCells r.new)).trans (hr' hmoved.2).symm
      rw [Renaming.onName_old hmoved.1 hmoved.2, hlater, hback]
      refine renameName_of_ne (List.forall_mem_map.mpr fun r' hr' e => ?_)
      have : r.old = r'.new := hmoved.2.symm.trans e
      exact hrold (this ▸ List.mem_cons_of_mem _ (mem_namesOf hr').2)
    · have hback : r.back.onName (renameName rs u) = renameName rs u := by
        refine Renaming.onName_other fun _ e => ?_
        rcases seenText_renameName rs u with e' | ⟨r', hr', e'⟩
        · exact hr (e'.symm.trans e)
        · have : r.new = r'.new := e.symm.trans e'
          exact hrnew (this ▸ (mem_namesOf hr').2)
      rw [Renaming.onName_other fun hskip hu => hmoved ⟨hskip, hu⟩, hback]
      exact ih hdistinct hrs hrs'

/-- Names that moved come back, in a script that calls none of the new names. -/
theorem renameText_back {rs : List Renaming} (hplain : ∀ r ∈ rs, r.Plain)
    (hdistinct : (namesOf rs).Nodup) {t : Text}
    (hnew : ∀ r ∈ rs, (callOf r.new : Pattern Cell Unit).occursIn (cells t) = false) :
    renameText (rs.map Renaming.back) (renameText rs t) = t := by
  have hback : ∀ r ∈ rs.map Renaming.back, r.Plain := List.forall_mem_map.mpr fun r hr =>
    (hplain r hr).back
  have hcells : cells (renameText (rs.map Renaming.back) (renameText rs t)) = cells t := by
    rw [cells_renameText hback, cells_renameText hplain,
      mapCalls_mapCalls (spelling_renameName hplain)]
    refine (mapCalls_congr fun u hu => ?_).trans (mapCalls_id _)
    refine renameName_back hdistinct (fun r hr e => ?_) fun r hr e => ?_
    · have hnone := hnew r hr
      rw [occursIn_callOf (hplain r hr).2.1, List.any_eq_false] at hnone
      exact hnone u hu (beq_iff_eq.mpr e)
    · -- The cells of an old name are code, since no literal shows it.
      have hcode : ∀ c ∈ u, c = codeCell (Glyph.seen c) := by
        intro c hc
        have hmem : c ∈ cellsFrom .start t := mem_of_mem_calls hu c hc
        obtain ⟨hregion, hchar⟩ :=
          (hplain r hr).1.code hmem (e ▸ List.mem_map_of_mem (f := Glyph.seen) hc)
        exact (eq_codeCell hmem hregion).trans (congrArg codeCell hchar)
      rw [← e, seenText, List.map_map]
      exact ((List.map_congr_left fun c hc => (hcode c hc).symm).trans (List.map_id u)).symm
  calc renameText (rs.map Renaming.back) (renameText rs t)
      = writtenText (cells (renameText (rs.map Renaming.back) (renameText rs t))) :=
        (writtenText_cellsFrom _ _).symm
    _ = writtenText (cells t) := by rw [hcells]
    _ = t := writtenText_cellsFrom _ t

section Tables

variable (tables : RenameTables Text)

/-- The entries of the tables for a script with the given mask. -/
def renamings (masked : Text) : List Renaming :=
  (tables.renames.map fun p => ⟨p.1, p.2, false⟩) ++
    tables.namespacedFunctions.map fun p => ⟨p.1, p.2, definesFunction masked p.1⟩

theorem modernizeNames_eq (t : Text) :
    ∃ masked, modernizeNames tables t = renameText (renamings tables masked) t := by
  refine ⟨mask (tables.renames.foldl (fun t p => renameCalls p.1 p.2 t) t), ?_⟩
  rw [renameText, renamings, List.foldl_append, List.foldl_map, List.foldl_map]
  rfl

theorem restoreNames_eq (masked t : Text) :
    restoreNames tables t = renameText ((renamings tables masked).map Renaming.back) t := by
  rw [renameText, renamings, List.map_append, List.foldl_append, List.foldl_map, List.foldl_map,
    List.foldl_map, List.foldl_map]
  rfl

theorem forall_mem_renamings {P : Text → Text → Prop}
    (h : ∀ p ∈ tables.renames ++ tables.namespacedFunctions, P p.1 p.2) (masked : Text) :
    ∀ r ∈ renamings tables masked, P r.old r.new := by
  obtain ⟨hrenames, hfunctions⟩ := List.forall_mem_append.mp h
  exact List.forall_mem_append.mpr
    ⟨List.forall_mem_map.mpr hrenames, List.forall_mem_map.mpr hfunctions⟩

/-- No name stands in the tables twice, and none can be part of a comment or a literal. -/
structure Invertible : Prop where
  plain : ∀ p ∈ tables.renames ++ tables.namespacedFunctions, Repair.IsPlainName p.1 ∧
    Repair.IsPlainName p.2
  distinct : ((tables.renames ++ tables.namespacedFunctions).flatMap fun p => [p.1, p.2]).Nodup

theorem Invertible.renamings {tables : RenameTables Text} (h : Invertible tables) (masked : Text) :
    (∀ r ∈ renamings tables masked, r.Plain) ∧ (namesOf (renamings tables masked)).Nodup := by
  refine ⟨forall_mem_renamings tables (P := fun old new => Repair.IsPlainName old ∧
    Repair.IsPlainName new) h.plain masked, ?_⟩
  have hdistinct := h.distinct
  rw [List.flatMap_append] at hdistinct
  rw [namesOf, Convert.renamings, List.flatMap_append, List.flatMap_map, List.flatMap_map]
  exact hdistinct

variable {tables}

/-- Both steps between the oldest versions, one after the other. -/
theorem apply_v5ToV4_v4ToV5 (htables : Invertible tables) {s : Text} (hmarked : Marked .v4 s)
    (hnew : ∀ p ∈ tables.renames ++ tables.namespacedFunctions,
      (callOf p.2 : Pattern Cell Unit).occursIn (cells s) = false) :
    Step.v5ToV4.apply tables (Step.v4ToV5.apply tables s) = s := by
  obtain ⟨masked, hforward⟩ := modernizeNames_eq tables (setMarker .v5 s)
  obtain ⟨hplain, hdistinct⟩ := htables.renamings masked
  obtain ⟨hset, hmarked'⟩ := renameText_setMarker hplain hmarked .v5
  calc Step.v5ToV4.apply tables (Step.v4ToV5.apply tables s)
      = restoreNames tables (setMarker .v4 (modernizeNames tables (setMarker .v5 s))) := rfl
    _ = restoreNames tables (renameText (renamings tables masked) s) := by
      rw [hforward, hset, setMarker_setMarker hmarked']
    _ = renameText ((renamings tables masked).map Renaming.back)
      (renameText (renamings tables masked) s) :=
      restoreNames_eq tables masked _
    _ = s := renameText_back hplain hdistinct
      (forall_mem_renamings tables
        (P := fun _ new => (callOf new : Pattern Cell Unit).occursIn (cells s) = false) hnew masked)

end Tables

theorem invertible_shipped : Invertible .shipped := ⟨by decide +kernel, by decide +kernel⟩

/-- A script of the oldest version that calls none of the newer names comes back from the version
after it. -/
theorem convert_restores_oldest (fallback : ScriptVersion) {s : Text}
    (hmarker : FirstMarker ScriptVersion.v4.marker s) (hnew : ∀ p ∈ RenameTables.shipped.renames ++
      RenameTables.shipped.namespacedFunctions,
      (callOf p.2 : Pattern Cell Unit).occursIn (cells s) = false)
    {newer older : Json} (hnewer : ScriptVersion.parse newer = .ok .v5)
    (holder : ScriptVersion.parse older = .ok .v4) :
    ((convert fallback .shipped s newer).bind fun r => convert fallback .shipped r older) = .ok
      s := by
  have hmarked : Marked .v4 s := hmarker
  exact convert_there_and_back namesOnly_shipped (hmarked.detectVersion fallback) hnewer
    holder rfl rfl
    (apply_v5ToV4_v4ToV5 invertible_shipped hmarked hnew)

theorem convert_restores_oldest_calls :
    ((convert .v6 .shipped "//@version=4\nstudy(1)\nx = sma (b)\nrsi() => 1".toList (.int 5)).bind
      fun r => convert .v6 .shipped r (.int 4)) =
        .ok "//@version=4\nstudy(1)\nx = sma (b)\nrsi() => 1".toList := by
  refine convert_restores_oldest .v6
    ⟨[], ["study(1)".toList, "x = sma (b)".toList, "rsi() => 1".toList], ?_, ?_, ?_⟩ ?_ ?_ ?_
  · decide +kernel
  · exact List.forall_mem_nil _
  · exact isMarkerLine_marker .v4
  · decide +kernel
  · decide
  · decide

end PineTools.Convert
