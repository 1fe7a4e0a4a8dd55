import PineTools.Proofs.Construct.Masked
import PineTools.Proofs.Convert.Names

/-! Renamed calls on the mask. Calls are looked for on the mask, where a hidden literal shows word
characters, and they are renamed in the script. Nothing that is hidden completes a call, so that
masking the renamed script is renaming the mask, and comments, literals and brackets are what they
were. -/
namespace PineTools.Convert

open Mode Reader

def NamedInCode (w : List Cell) : Prop := w ≠ [] ∧ ∀ c ∈ w, c.region = .code ∧
    Text.isWordOrDot c.char = true

theorem namedInCode_codeCells {new : Text} (h : Repair.IsName new) :
    NamedInCode (new.map codeCell) := by
  constructor
  · intro e
    exact h.1 (List.map_eq_nil_iff.mp e)
  · intro c hc
    obtain ⟨d, hd, rfl⟩ := List.mem_map.mp hc
    exact ⟨rfl, h.2 d hd⟩

/-- Cells in which some names of code are spelt otherwise. -/
inductive RespeltCells : List Cell → List Cell → Prop
  | done : RespeltCells [] []
  | keep {cs cs' : List Cell} (c : Cell) (rest : RespeltCells cs cs') :
    RespeltCells (c :: cs) (c :: cs')
  | name {w w' cs cs' : List Cell} (old : NamedInCode w) (new : NamedInCode w')
  (rest : RespeltCells cs cs') :
      RespeltCells (w ++ cs) (w' ++ cs')

def hiddenCells (cs : List Cell) : List Cell := cs.filter fun c => !c.isCode

section Names

variable {w : List Cell}

theorem isCode_of_named (h : NamedInCode w) : ∀ c ∈ w, c.isCode = true := by
  intro c hc
  rw [Cell.isCode, (h.2 c hc).1]
  rfl

theorem hiddenCells_name (h : NamedInCode w) (cs : List Cell) :
    hiddenCells (w ++ cs) = hiddenCells cs := by
  have hnone : hiddenCells w = [] := by
    rw [hiddenCells, List.filter_eq_nil_iff]
    intro c hc
    simp [isCode_of_named h c hc]
  rw [hiddenCells, List.filter_append]
  exact (congrArg (· ++ hiddenCells cs) hnone).trans (List.nil_append _)

theorem literalsFrom_code {c : Cell} (h : c.region = .code) (opened : Text) (cs : List Cell) :
    literalsFrom opened (c :: cs) = literalsFrom [] cs := by
  rw [literalsFrom, h, if_neg]
  simp [Region.isLiteral]

theorem literalsFrom_name (h : NamedInCode w) (opened : Text) (cs : List Cell) :
    literalsFrom opened (w ++ cs) = literalsFrom [] cs := by
  obtain ⟨hne, hw⟩ := h
  induction w generalizing opened with
  | nil => exact absurd rfl hne
  | cons c w ih =>
    obtain ⟨hc, hw⟩ := List.forall_mem_cons.mp hw
    rw [List.cons_append, literalsFrom_code hc.1]
    cases w with
    | nil => rfl
    | cons d w => exact ih [] (List.cons_ne_nil d w) hw

theorem bracketsFrom_name (h : NamedInCode w) (stack : List OpenBracket) (number : Nat)
    (cs : List Cell) :
    bracketsFrom stack number (w ++ cs) = bracketsFrom stack number cs := by
  obtain ⟨-, hw⟩ := h
  induction w with
  | nil => rfl
  | cons c w ih =>
    obtain ⟨⟨-, hword⟩, hw⟩ := List.forall_mem_cons.mp hw
    have hn : c.char ≠ '\n' := (not_blank_of_isWordOrDot hword).2
    have hopener : Bracket.ofOpener? c.char = none := by
      refine Option.eq_none_iff_forall_ne_some.mpr fun k hk => ?_
      rw [Bracket.ofOpener?_eq_some.mp hk] at hword
      cases k <;> exact absurd hword (by decide)
    have hcloser : Bracket.ofCloser? c.char = none := by
      refine Option.eq_none_iff_forall_ne_some.mpr fun k hk => ?_
      rw [Bracket.ofCloser?_eq_some.mp hk] at hword
      cases k <;> exact absurd hword (by decide)
    have hstep : bracketStep stack number c = ([], stack) := by
      rw [bracketStep, hopener, hcloser]
      split <;> rfl
    rw [List.cons_append, bracketsFrom_cons, hstep, if_neg hn, ih hw, BracketReport.behind_nil]

end Names

namespace RespeltCells

variable {cs cs' : List Cell}

theorem hiddenCells_eq (h : RespeltCells cs cs') : hiddenCells cs' = hiddenCells cs := by
  induction h with
  | done => rfl
  | keep c _ ih =>
    unfold hiddenCells at ih ⊢
    rw [List.filter_cons, List.filter_cons, ih]
  | name old new _ ih => rw [hiddenCells_name old, hiddenCells_name new, ih]

theorem literalsFrom_eq (h : RespeltCells cs cs') (opened : Text) :
    literalsFrom opened cs' = literalsFrom opened cs := by
  induction h generalizing opened with
  | done => rfl
  | keep c _ ih =>
    unfold literalsFrom
    simp only [ih]
  | name old new _ ih => rw [literalsFrom_name old, literalsFrom_name new, ih]

theorem bracketsFrom_eq (h : RespeltCells cs cs') (stack : List OpenBracket) (number : Nat) :
    bracketsFrom stack number cs' = bracketsFrom stack number cs := by
  induction h generalizing stack number with
  | done => rfl
  | keep c _ ih => rw [bracketsFrom_cons, bracketsFrom_cons, ih]
  | name old new _ ih => rw [bracketsFrom_name old, bracketsFrom_name new, ih]

end RespeltCells

/-- What is around the names of a script: comments, literals and brackets. -/
structure KeepsSurroundings (t t' : Text) : Prop where
  hidden : hiddenCells (cells t') = hiddenCells (cells t)
  comments : notes t' = notes t
  literals : closedLiterals t' = closedLiterals t
  unclosed : unclosedLiterals t' = unclosedLiterals t
  brackets : matchBrackets t' = matchBrackets t

section RenameCalls

variable {name new : Text}

theorem seesAs_callOf {α : Type} [Glyph α] (name : Text) (before : Option Char) :
    SeesAs (callOf name before : Reader α Unit) (callOf name before) id := by
  apply Pattern.seesAs_fresh
  refine (seesAs_exactly name).discard.bind fun _ => ?_
  exact SeesAs.ahead ((seesAs_run _).discard.bind fun _ => seesAs_one _)

def shownCalls (name t : Text) : List (Match Char Unit) := (callOf name).findAll (mask t)

def renamingEdits (name new t : Text) : List Edit := (shownCalls name t).map fun m =>
    ⟨m.start, m.stop, new⟩

theorem shownCalls_eq (name t : Text) :
    shownCalls name t = (Repair.callsOf name t).map fun m => ⟨m.start, seenText m.glyphs, ()⟩ :=
  Pattern.findAll_seen (@seesAs_callOf Cell _ name) (cells t)

theorem renamingEdits_eq (name new t : Text) :
    renamingEdits name new t = (Repair.callsOf name t).map (Repair.renameEdit new) := by
  rw [renamingEdits, shownCalls_eq, List.map_map]
  apply List.map_congr_left
  intro m _
  simp [Match.stop, Repair.renameEdit, seenText]

theorem ordered_renamingEdits (hname : Repair.IsName name) (new t : Text) :
    Edit.Ordered t.length 0 (renamingEdits name new t) := by
  rw [renamingEdits_eq]
  exact Repair.ordered_renameEdits hname new t

theorem renameCalls_applyAll (hname : Repair.IsName name) (new t : Text) :
    renameCalls name new t = Edit.applyAll t (renamingEdits name new t) := by
  rw [Edit.applyAll_eq_splice t (ordered_renamingEdits hname new t), renamingEdits_eq]
  exact congrArg Prod.fst (Repair.renameCalls_eq hname new t)

/-- The segments of a sequence, with the matches spelt otherwise, as they are shown. -/
theorem rebuild_seen (new : Text) (segs : List (Segment Cell Unit)) :
    (rebuild id (fun _ _ => new) none (segs.map (Segment.seen id))).1 =
      seenText (segs.flatMap (Segment.respelt (new.map codeCell))) := by
  induction segs with
  | nil => rfl
  | cons s segs ih =>
    rw [List.flatMap_cons, seenText, List.map_append, ← seenText, ← seenText, ← ih]
    cases s with
    | plain g => rfl
    | found gs v =>
      rw [Segment.respelt, seenText_codeCells]
      rfl

theorem segmented_calls (hname : Repair.IsName name) (t : Text) :
    Pattern.Segmented (callOf name) none (cells t) ((callOf name).segments (cells t)) :=
  Pattern.segmented_segments (Repair.advances_callOf hname) (cells t)

theorem cellsFrom_written (t : Text) : cellsFrom .start (writtenText (cells t)) = cells t := by
  rw [cells, writtenText_cellsFrom]

theorem mask_renameCalls (hname : Repair.IsName name) (hnew : Repair.IsName new) (t : Text) :
    mask (renameCalls name new t) = Edit.applyAll (mask t) (renamingEdits name new t) := by
  have hordered := ordered_renamingEdits hname new t
  rw [← mask_length t] at hordered
  have hcells : cells (renameCalls name new t) = _ :=
    cellsFrom_respelt hname hnew (segmented_calls hname t) (cellsFrom_written t)
  have hseen : (callOf name : Pattern Char Unit).segments (mask t) =
      ((callOf name).segments (cells t)).map (Segment.seen id) :=
    Pattern.segmentsFrom_seen (@seesAs_callOf Cell _ name) none 0 (cells t)
  have hadv := (@lineWise_callOf_name Char _ name hname).advances
  have hsplice := ((Pattern.segmented_segments hadv (mask t)).rebuild_eq id (fun _ _ => new) []).1
  rw [List.nil_append, List.map_id] at hsplice
  calc mask (renameCalls name new t)
      = seenText (((callOf name).segments (cells t)).flatMap
        (Segment.respelt (new.map codeCell))) := by
        rw [mask, hcells]
        rfl
    _ = (rebuild id (fun _ _ => new) none
      ((callOf name : Pattern Char Unit).segments (mask t))).1 := by
        rw [hseen, rebuild_seen]
    _ = Edit.splice (mask t) 0 (renamingEdits name new t) := hsplice
    _ = Edit.applyAll (mask t) (renamingEdits name new t) :=
      (Edit.applyAll_eq_splice (mask t) hordered).symm

theorem shownCalls_in_code (hname : Repair.IsName name) {t : Text} {m : Match Char Unit}
    (hm : m ∈ shownCalls name t) :
    Text.slice t m.start m.stop = name ∧ ∀ c ∈ Text.slice (cells t) m.start m.stop,
      c.region = .code := by
  rw [shownCalls_eq] at hm
  obtain ⟨m', hm', rfl⟩ := List.mem_map.mp hm
  obtain ⟨a, rest, hcells, hstart, happ⟩ :=
    Pattern.applies_of_mem_findAll (Repair.advances_callOf hname) hm'
  obtain ⟨hwritten, hcode⟩ := hname.called happ hcells
  have hstop : (⟨m'.start, seenText m'.glyphs, ()⟩ : Match Char Unit).stop =
      a.length + m'.glyphs.length := by
    simp [Match.stop, hstart, seenText]
  have hslice : Text.slice (cells t) a.length (a.length + m'.glyphs.length) = m'.glyphs := by
    rw [hcells, Text.slice, List.drop_take, List.drop_left, Nat.add_sub_cancel_left, List.take_left]
  rw [hstop, hstart, slice_stretch hcells, hslice]
  exact ⟨hwritten, fun c hc => (hcode c hc).1⟩

theorem respelt_segments (hname : Repair.IsName name) (hnew : Repair.IsName new) {t : Text}
    {before : Option Char} {gs : List Cell} {segs : List (Segment Cell Unit)}
    (h : Pattern.Segmented (callOf name) before gs segs) {a : List Cell}
    (hread : cells t = a ++ gs) :
    RespeltCells gs (segs.flatMap (Segment.respelt (new.map codeCell))) := by
  induction h generalizing a with
  | done => exact .done
  | @plain before g gs segs _ _ ih =>
    apply RespeltCells.keep g
    apply @ih (a ++ [g])
    rw [hread, List.append_assoc]
    rfl
  | @found before taken gs v segs hne happ _ ih =>
    obtain ⟨-, hcode⟩ := hname.called happ hread
    apply RespeltCells.name ⟨hne, hcode⟩ (namedInCode_codeCells hnew)
    apply @ih (a ++ taken)
    rw [hread, List.append_assoc]

theorem unclosedFrom_name {w : Text} (hw : Repair.IsName w) (k : Bool) (number : Nat) (r : Text) :
    unclosedFrom (.code k) number (w ++ r) = unclosedFrom (.code false) number r := by
  have hone : Text.OneLine w := fun hn => (not_blank_of_isWordOrDot (hw.2 _ hn)).2 rfl
  have hafter := (read_tame hw.tame hw.1 k []).2 r.head?
  rw [List.append_nil] at hafter
  rw [unclosedFrom_append, unclosedUpTo_oneLine hone, hafter, List.count_eq_zero.mpr hone]
  rfl

theorem unclosedFrom_respelt (hname : Repair.IsName name) (hnew : Repair.IsName new)
    {before : Option Char} {gs : List Cell} {segs : List (Segment Cell Unit)}
    (h : Pattern.Segmented (callOf name) before gs segs) {m : Mode}
    (hgs : cellsFrom m (writtenText gs) = gs) (number : Nat) :
    unclosedFrom m number (rebuild Cell.char (fun _ _ => new) none segs).1 =
      unclosedFrom m number (writtenText gs) := by
  induction h generalizing m number with
  | done => rfl
  | @plain before g gs segs _ rest ih =>
    obtain ⟨-, hgs⟩ : (m.step g.char (writtenText gs).head?).1 = g ∧
        cellsFrom (m.step g.char (writtenText gs).head?).2 (writtenText gs) = gs :=
          List.cons.inj hgs
    change unclosedFrom m number (g.char :: (rebuild Cell.char (fun _ _ => new) none segs).1) =
      unclosedFrom m number (g.char :: writtenText gs)
    rw [unclosedFrom_step, unclosedFrom_step, step_before_respelt hname hnew rest hgs, ih hgs]
  | @found before taken gs v segs hne happ _ ih =>
    obtain ⟨hwritten, k, rfl⟩ := called_in_code hname happ hgs
    have hcells := (read_tame hname.tame hname.1 k (writtenText gs)).1
    rw [← hwritten, ← writtenText_append, hgs] at hcells
    have hlen : taken.length = ((writtenText taken).map codeCell).length := by
      rw [List.length_map, writtenText, List.length_map]
    have hrest := (List.append_inj hcells hlen).2
    change unclosedFrom (.code k) number
      (new ++ (rebuild Cell.char (fun _ _ => new) none segs).1) = _
    rw [writtenText_append, hwritten, unclosedFrom_name hname, unclosedFrom_name hnew,
      ih hrest.symm]

theorem surroundings_renameCalls (hname : Repair.IsName name) (hnew : Repair.IsName new)
    (t : Text) :
    KeepsSurroundings t (renameCalls name new t) := by
  have hcells : cells (renameCalls name new t) = _ :=
    cellsFrom_respelt hname hnew (segmented_calls hname t) (cellsFrom_written t)
  have hrespelt : RespeltCells (cells t) (cells (renameCalls name new t)) := by
    rw [hcells]
    exact @respelt_segments _ _ hname hnew t _ _ _ (segmented_calls hname t) [] rfl
  have hunclosed := unclosedFrom_respelt hname hnew (segmented_calls hname t)
    (cellsFrom_written t) 1
  rw [cells, writtenText_cellsFrom] at hunclosed
  exact
    { hidden := hrespelt.hiddenCells_eq
      comments := Repair.notes_renameCalls hname hnew t
      literals := hrespelt.literalsFrom_eq []
      unclosed := hunclosed
      brackets := hrespelt.bracketsFrom_eq [] 1 }

/-- Renaming the calls that the mask shows commutes with masking, touches nothing but the name in
code, and leaves comments, literals and brackets alone. -/
theorem renameCalls_commutes_with_mask (hname : Repair.IsName name) (hnew : Repair.IsName new)
    (t : Text) :
    renameCalls name new t = Edit.applyAll t (renamingEdits name new t) ∧
      mask (renameCalls name new t) = Edit.applyAll (mask t) (renamingEdits name new t) ∧
      (∀ m ∈ shownCalls name t, Text.slice t m.start m.stop = name ∧
        ∀ c ∈ Text.slice (cells t) m.start m.stop, c.region = .code) ∧
      KeepsSurroundings t (renameCalls name new t) :=
  ⟨renameCalls_applyAll hname new t, mask_renameCalls hname hnew t, fun _ hm =>
    shownCalls_in_code hname hm, surroundings_renameCalls hname hnew t⟩

/-- A filler hides the letters of a literal, and it is a letter of the name. -/
theorem renameCalls_commutes_with_mask_max :
    mask (renameCalls "max".toList "math.max".toList "\"max(\" + max (1) // max(2)".toList) =
      Edit.applyAll "\"xxxx\" + max (1)          ".toList [⟨9, 12, "math.max".toList⟩] := by
  obtain ⟨-, h, -⟩ := @renameCalls_commutes_with_mask "max".toList "math.max".toList
    (by decide) (by decide)
    "\"max(\" + max (1) // max(2)".toList
  have hmask : mask "\"max(\" + max (1) // max(2)".toList =
      "\"xxxx\" + max (1)          ".toList := by decide +kernel
  have hedits : renamingEdits "max".toList "math.max".toList "\"max(\" + max (1) // max(2)".toList =
      [⟨9, 12, "math.max".toList⟩] := by decide +kernel
  rw [hmask, hedits] at h
  exact h

end RenameCalls

end PineTools.Convert
