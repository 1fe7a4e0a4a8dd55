import PineTools.Proofs.Construct.FirstWord
import PineTools.Proofs.Repair.ExportLines
import PineTools.Proofs.Repair.Moves

/-! Scripts whose exported variables are declared. Nothing but their lines changes, and the lines
that replace them export no variable, call no name and open no bracket that they did not. -/
namespace PineTools.Repair

open Mode Reader

theorem isBracket_of_inExportHead {c : Char} (h : inExportHead c = true) : isBracket c = false := by
  rw [inExportHead, Bool.or_eq_true, Bool.or_eq_true, beq_iff_eq] at h
  rcases h with (h | h) | rfl
  · exact isBracket_white (Text.isSpace_of_isBlank h)
  · exact isBracket_of_isWordOrDot h
  · decide

theorem isBracket_tail {tail : List Cell} (h : ExportTail tail) :
    ∀ c ∈ seenText tail, isBracket c = false := by
  obtain ⟨gap, semicolon, rest, rfl, -, hsemicolon, hblank⟩ := h
  obtain ⟨hgap, hrest⟩ := List.forall_mem_append.mp hblank
  have hwhite {gs : List Cell} (hgs : ∀ g ∈ gs, Text.isBlank (Glyph.seen g) = true) :
      ∀ c ∈ seenText gs, isBracket c = false :=
    List.forall_mem_map.mpr fun g hg => isBracket_white (Text.isSpace_of_isBlank (hgs g hg))
  rw [seenText_append, seenText_append]
  refine List.forall_mem_append.mpr ⟨hwhite hgap, List.forall_mem_append.mpr ⟨?_, hwhite hrest⟩⟩
  refine List.forall_mem_map.mpr fun g hg => ?_
  rw [hsemicolon g hg]
  decide

namespace ReadsExport

variable {e : ExportedVariable Cell} {head : List Cell} (h : ReadsExport e head)
include h

theorem mask_eq : mask (exportText e head) =
    seenText (e.indent ++ head) ++ (seenText e.value ++ seenText e.tail) := by
  rw [mask, h.cells_eq, ← List.append_assoc, ← seenText_append, ← seenText_append]
  rfl

theorem isBracket_indent : ∀ c ∈ seenText e.indent, isBracket c = false :=
  List.forall_mem_map.mpr fun c hc => isBracket_white (Text.isSpace_of_isBlank (h.indent c hc))

theorem isBracket_name : ∀ c ∈ seenText e.name, isBracket c = false :=
  List.forall_mem_map.mpr fun c hc =>
    isBracket_of_isWordOrDot (Bool.or_eq_true_iff.mpr (.inl (h.head.name.2 c hc)))

theorem isBracket_lead : ∀ c ∈ seenText (e.indent ++ head), isBracket c = false :=
  List.forall_mem_map.mpr fun c hc =>
    isBracket_of_inExportHead (exportLead_shown h.indent h.head c hc)

theorem isBracket_declaration (v : ScriptVersion) : ∀ c ∈ seenText e.indent ++
    ((exportKeyword v e.kind).toList ++ ' ' :: (seenText e.name ++ [' '])),
      isBracket c = false := by
  have hkeyword : ∀ c ∈ (exportKeyword v e.kind).toList, isBracket c = false := by
    rw [exportKeyword]
    split <;> decide
  simp only [List.forall_mem_append, List.forall_mem_cons]
  exact ⟨h.isBracket_indent, hkeyword, by
    decide, h.isBracket_name, by decide, List.forall_mem_nil _⟩

theorem isBracket_newExport : ∀ c ∈ mask (newExport e), isBracket c = false := by
  rw [h.mask_newExport.1]
  simp only [List.forall_mem_append]
  exact ⟨h.isBracket_indent, by decide, h.isBracket_name⟩

theorem mask_replacement_eq (v : ScriptVersion) : ∃ behind, (∀ c ∈ behind, isBracket c = false) ∧
    mask (exportReplacement v e) =
      (seenText e.indent ++
        ((exportKeyword v e.kind).toList ++ ' ' :: (seenText e.name ++ [' ']))) ++
        '=' :: ([' '] ++ (seenText e.value ++ behind)) ++ '\n' :: mask (newExport e) := by
  obtain ⟨behind, hvalue, hbehind, -⟩ := h.read_suffix
  refine ⟨behind, fun c hc => isBracket_white (Text.isSpace_of_isBlank (hbehind c hc)), ?_⟩
  have hsign : " = ".toList = [' ', '=', ' '] := rfl
  rw [(h.mask_replacement v).1, (h.mask_declaration v).1, hvalue, hsign]
  simp only [List.append_assoc, List.cons_append, List.nil_append]

/-- The brackets of an exported variable are those of its value, and the declaration keeps them. -/
theorem brackets_replacement (v : ScriptVersion) :
    brackets (mask (exportReplacement v e)) = brackets (mask (exportText e head)) := by
  obtain ⟨behind, hbehind, hmask⟩ := h.mask_replacement_eq v
  have hcons {c : Char} (hc : isBracket c = false) (w : Text) : brackets (c :: w) = brackets w :=
    List.filter_cons_of_neg (by rw [hc]; exact Bool.false_ne_true)
  calc brackets (mask (exportReplacement v e))
      = brackets (seenText e.value) := by
        rw [hmask, brackets_append, hcons (by decide), brackets_of_none h.isBracket_newExport,
          brackets_append, brackets_of_none (h.isBracket_declaration v), hcons (by decide),
          List.singleton_append, hcons (by decide), brackets_append, brackets_of_none hbehind,
          List.append_nil, List.append_nil, List.nil_append]
    _ = brackets (mask (exportText e head)) := by
        rw [h.mask_eq, brackets_append, brackets_of_none h.isBracket_lead, brackets_append,
          brackets_of_none (isBracket_tail h.tail), List.append_nil, List.nil_append]

theorem mem_calls_replacement (v : ScriptVersion) {k : Text} (hk : k ≠ [])
    (hcalled : k ∈ calls (mask (exportReplacement v e))) :
    k ∈ calls (mask (exportText e head)) := by
  obtain ⟨behind, hbehind, hmask⟩ := h.mask_replacement_eq v
  have hclosed {w : Text} (hw : ∀ c ∈ w, isBracket c = false) : ∀ c ∈ w, Glyph.seen c ≠ '(' := by
    rintro c hc rfl
    exact absurd (hw _ hc) (by decide)
  have hdivides : Divides '\n' ∧ Divides '=' := by
    rw [Divides, Divides]
    decide
  have hvalue : k ∈ calls (seenText e.value) := by
    rw [hmask, calls_append_divider hdivides.1, calls_closed (hclosed h.isBracket_newExport),
      List.append_nil, calls_append_divider hdivides.2,
      calls_closed (hclosed (h.isBracket_declaration v)), List.nil_append,
      mem_calls_append_of_not hk (by decide), calls_append_closed (hclosed hbehind)] at hcalled
    exact hcalled
  obtain ⟨keyword, blanks₁, blanks₂, blanks₃, equals, blanks₄, hhead, -, hequals, -, -, hblank⟩ :=
    h.head.parts
  have hlead : mask (exportText e head) =
      seenText (e.indent ++
        (keyword ++ (blanks₁ ++ (e.kind ++ (blanks₂ ++ (e.name ++ blanks₃)))))) ++
        '=' :: (seenText blanks₄ ++ (seenText e.value ++ seenText e.tail)) := by
    have hseen : equals.masked = '=' := hequals
    rw [h.mask_eq, hhead, ← hseen]
    simp only [seenText, List.map_append, List.map_cons, List.append_assoc, List.cons_append]
    rfl
  have hgap : ∀ c ∈ seenText blanks₄, inName c = false :=
    List.forall_mem_map.mpr fun g hg => not_inName_of_blank (hblank g (by simp [hg]))
  rw [hlead, calls_append_divider hdivides.2]
  refine List.mem_append_right _ ((mem_calls_append_of_not hk hgap _).mpr ?_)
  rwa [calls_append_closed (hclosed (isBracket_tail h.tail))]

theorem inLine : InLine (e.indent ++ (head ++ (e.value ++ e.tail))) := by
  intro c hc k
  have hsplit : c ∈ e.indent ++ head ∨ c ∈ e.value ∨ c ∈ e.tail := by
    simpa [or_assoc] using hc
  have hk : c.masked = '\n' := k
  rcases hsplit with hlead | hvalue | htail
  · have hshown := exportLead_shown h.indent h.head c hlead
    rw [hk] at hshown
    exact absurd hshown (by decide)
  · exact h.value c hvalue hk
  · exact (mem_exportTail h.tail (fun c hc => h.mem_cells (by simp [hc])) htail).1
      (char_of_newline hk)

theorem functionDefinition_none : functionDefinition none (mask (exportText e head)) = none := by
  obtain ⟨keyword, blanks₁, blanks₂, blanks₃, equals, blanks₄, hhead, hkeyword, -, hne₁,
      hne₂, hblank⟩ :=
    h.head.parts
  obtain ⟨y, gap, rfl⟩ := List.exists_cons_of_ne_nil hne₁
  obtain ⟨w, hw, hkind⟩ := h.head.kind
  have hkinds : ∀ w ∈ exportKinds, ∃ c cs, w.toList = c :: cs ∧ Text.isWord c = true := by
    simp only [exportKinds, List.forall_mem_cons]
    exact ⟨⟨_, _, rfl, by decide⟩, ⟨_, _, rfl, by decide⟩, ⟨_, _, rfl, by decide⟩,
      List.forall_mem_nil _⟩
  obtain ⟨c, cs, hw, hc⟩ := hkinds w hw
  obtain ⟨x, kind, hx⟩ := List.exists_cons_of_ne_nil (l := e.kind) fun k => by
    rw [k, hw] at hkind
    cases hkind
  have hseen : Glyph.seen x = c := by
    rw [hx, hw] at hkind
    exact (List.cons.inj hkind).1
  have hline :=
    functionDefinition_of_word
      (b := kind ++ (blanks₂ ++ (e.name ++ (blanks₃ ++ equals :: (blanks₄ ++
    (e.value ++ e.tail)))))) hkeyword undefining_export h.indent
      (fun g hg => hblank g (List.mem_append_left _ hg))
    (by rw [hseen]; exact hc)
  have hsplit :
    e.indent ++ (keyword ++ (y :: gap ++ x :: (kind ++ (blanks₂ ++ (e.name ++ (blanks₃ ++
      equals :: (blanks₄ ++ (e.value ++ e.tail)))))))) = e.indent ++
        (head ++ (e.value ++ e.tail)) := by
    rw [hhead, hx]
    simp only [List.append_assoc, List.cons_append]
  rw [hsplit] at hline
  have hmask : mask (exportText e head) = seenText (e.indent ++ (head ++ (e.value ++ e.tail))) := by
    rw [mask, h.cells_eq]
    rfl
  rw [hmask, seesAs_functionDefinition, hline]
  rfl

end ReadsExport

theorem exportedVariable_words {gs rest : Text} {e : ExportedVariable Char}
    (h : exportedVariable none gs = some (e, rest)) :
    ∃ g more, gs.dropWhile Text.isBlank = "export".toList ++ g :: more ∧
      ∃ c ∈ more, Text.isBlank c = true := by
  obtain ⟨-, -, hindent, -, -, -, -, head, hhead, rfl⟩ := exportedVariable_eq_some h
  obtain ⟨keyword, blanks₁, blanks₂, blanks₃, equals, blanks₄, rfl, hkeyword, -, hne₁,
      hne₂, hblank⟩ :=
    hhead.parts
  obtain rfl : keyword = "export".toList := (List.map_id keyword).symm.trans hkeyword
  obtain ⟨g, gap, rfl⟩ := List.exists_cons_of_ne_nil hne₁
  obtain ⟨c, gap₂, rfl⟩ := List.exists_cons_of_ne_nil hne₂
  refine ⟨g, gap ++ (e.kind ++ (c :: gap₂ ++ (e.name ++ (blanks₃ ++ equals :: (blanks₄ ++
    (e.value ++ (e.tail ++ rest))))))), ?_, c, by simp, hblank c (by simp)⟩
  have hblanks : ∀ c ∈ e.indent, Text.isBlank c = true := hindent
  rw [List.dropWhile_append_of_pos hblanks]
  simp only [List.append_assoc, List.cons_append]
  rfl

theorem ReadsExport.exportedVariable_declaration {e : ExportedVariable Cell} {head : List Cell}
    (h : ReadsExport e head) (v : ScriptVersion) (behind : Text) :
    (exportedVariable none : Reader Char _)
      (seenText e.indent ++ ((exportKeyword v e.kind).toList ++ behind)) = none := by
  refine Option.eq_none_iff_forall_ne_some.mpr fun p hp => ?_
  obtain ⟨g, more, hwords, -⟩ := exportedVariable_words hp
  have hblank : ∀ c ∈ seenText e.indent, Text.isBlank c = true := List.forall_mem_map.mpr h.indent
  rw [List.dropWhile_append_of_pos hblank, exportKeyword] at hwords
  split at hwords
  · exact absurd (List.cons.inj hwords).1 (by decide)
  · exact absurd (List.cons.inj hwords).1 (by decide)

theorem ReadsExport.exportedVariable_newExport {e : ExportedVariable Cell} {head : List Cell}
    (h : ReadsExport e head) :
    (exportedVariable none : Reader Char _) (mask (newExport e)) = none := by
  refine Option.eq_none_iff_forall_ne_some.mpr fun p hp => ?_
  obtain ⟨g, more, hwords, c, hc, hblank⟩ := exportedVariable_words hp
  have hindent : ∀ c ∈ seenText e.indent, Text.isBlank c = true := List.forall_mem_map.mpr h.indent
  rw [h.mask_newExport.1, List.dropWhile_append_of_pos hindent] at hwords
  have htail : ' ' :: seenText e.name = g :: more :=
    List.append_cancel_left (show "export".toList ++ _ = "export".toList ++ _ from hwords)
  obtain ⟨k, hk, rfl⟩ := List.mem_map.mp ((List.cons.inj htail).2 ▸ hc)
  have hword := h.head.name.2 k hk
  rw [not_word_of_blank hblank] at hword
  cases hword

theorem findAll_exportedVariable {α : Type} [Glyph α] {l : List α} (hl : InLine l)
    (h : (exportedVariable none : Reader α _) l = none) : exportedVariable.findAll l = [] :=
  Pattern.findAll_atLineStart lineWise_exportedVariable.advances hl h

theorem exportedVariable_seen (before : Option Char) :
    SeesAs (exportedVariable before : Reader Cell (ExportedVariable Cell)) (exportedVariable before)
      ExportedVariable.seen :=
  Pattern.seesAs_atLineStart seesAs_exportedVariable before

theorem ReadsExport.findAll_replacement {e : ExportedVariable Cell} {head : List Cell}
    (h : ReadsExport e head) (v : ScriptVersion) :
    (exportedVariable : Pattern Char _).findAll (mask (exportReplacement v e)) = [] := by
  have hline : (exportedVariable : Pattern Char _).LineWise := lineWise_exportedVariable
  obtain ⟨behind, hvalue, hbehind, -⟩ := h.read_suffix
  have hn : Glyph.seen '\n' = '\n' := rfl
  have hshown {gs : List Cell} (hgs : ∀ c ∈ gs, c ∈ e.indent ++ (head ++ (e.value ++ e.tail))) :
      InLine (seenText gs) :=
    List.forall_mem_map.mpr fun c hc => h.inLine c (hgs c hc)
  have hindent : InLine (seenText e.indent) := hshown fun c hc => List.mem_append_left _ hc
  have hname : InLine (seenText e.name) := by
    refine List.forall_mem_map.mpr fun c hc k => ?_
    have hword : Text.isWord (Glyph.seen c) = true := h.head.name.2 c hc
    exact absurd (k ▸ hword) (by decide)
  have hvalueLine : InLine (seenText e.value) := hshown fun c hc => by simp [hc]
  have hbehindLine : InLine behind := by
    rintro c hc rfl
    exact absurd (hbehind _ hc) (by decide)
  have hkeyword : InLine (exportKeyword v e.kind).toList := by
    rw [exportKeyword]
    split <;> (rw [InLine]; decide)
  have hdeclared : InLine (seenText e.indent ++ ((exportKeyword v e.kind).toList ++
      ' ' :: (seenText e.name ++ " = ".toList)) ++ (seenText e.value ++ behind)) := by
    rw [InLine]
    simp only [List.forall_mem_append, List.forall_mem_cons]
    exact ⟨⟨hindent, hkeyword, by decide, hname, by decide⟩, hvalueLine, hbehindLine⟩
  have hexported : InLine (seenText e.indent ++ ("export ".toList ++ seenText e.name)) := by
    rw [InLine]
    simp only [List.forall_mem_append]
    exact ⟨hindent, by decide, hname⟩
  have hdeclaration : (exportedVariable none : Reader Char _) (seenText e.indent ++
      ((exportKeyword v e.kind).toList ++ ' ' :: (seenText e.name ++ " = ".toList)) ++
        (seenText e.value ++ behind)) = none := by
    rw [List.append_assoc, List.append_assoc]
    exact h.exportedVariable_declaration v _
  have hexport := h.exportedVariable_newExport
  rw [h.mask_newExport.1] at hexport
  rw [(h.mask_replacement v).1, hline.findAll_newline _ hn, (h.mask_declaration v).1, hvalue,
    h.mask_newExport.1, findAll_exportedVariable hdeclared hdeclaration,
    findAll_exportedVariable hexported hexport]
  rfl

theorem rebuild_exportedVariable (v : ScriptVersion) {l : List Cell} (hl : InLine l)
    {e : ExportedVariable Cell} {rest : List Cell} (h : exportedVariable none l = some (e, rest)) :
    ⟨0, l, e⟩ ∈ exportedVariable.findAll l ∧
      (rebuild Cell.masked (fun _ e => mask (exportReplacement v e)) none
        ((exportedVariable : Pattern Cell (ExportedVariable Cell)).segments l)).1 =
          mask (exportReplacement v e) := by
  obtain ⟨taken, hne, rfl⟩ := advances_exportedVariable h
  obtain ⟨-, hbehind, -⟩ := exportedVariable_eq_some h
  obtain rfl : rest = [] := hbehind.resolve_right fun ⟨g, gs, hrest, hg⟩ =>
    hl g (by simp [hrest]) hg
  obtain ⟨taken', hsplit, hnew⟩ := rebuild_of_some (fun _ e => mask (exportReplacement v e))
    lineWise_exportedVariable rfl Cell.masked hl h
  refine ⟨?_, hnew.trans (List.append_nil _)⟩
  rw [Pattern.findAll, Pattern.segments, Pattern.segmentsFrom_found hne h, List.append_nil]
  exact List.mem_cons_self

section Script

variable {t : Text} (hapart : ExportsApart t) (v : ScriptVersion)
include hapart

theorem splitExports_revises : Revises .start t (splitExports v t).text
    ((exportedVariables t).map fun m => Edit.swap t (exportEdit v m)) := by
  have hrev := Edit.revises_splice (ordered_exportEdits v t) fun e he => by
    obtain ⟨m, hm, rfl⟩ := List.mem_map.mp he
    exact sound_exportEdit hm (hapart m hm) v
  rw [List.map_map] at hrev
  rw [splitExports_text]
  exact hrev

theorem Closed.splitExports (h : Closed t) : Closed (splitExports v t).text := by
  refine h.revised (splitExports_revises hapart v) (List.forall_mem_map.mpr fun m hm => ?_)
  obtain ⟨a, rest, hline⟩ := exportLine_of_mem hm
  obtain ⟨head, hreads, -, hslice, hmode⟩ := readsExport_of_mem hm (hapart m hm)
  have hliteral := not_inLiteral_of_closed h.literals hline.head?_behind
  rw [hmode] at hliteral
  refine ⟨hreads.closed_replacement v hliteral (hline.oneLine v).2, ?_⟩
  change PineTools.brackets (mask (exportReplacement v m.value)) =
    PineTools.brackets (mask (Text.slice t m.start m.stop))
  rw [hslice]
  exact hreads.brackets_replacement v

theorem mask_splitExports : mask (splitExports v t).text =
    (rebuild Cell.masked (fun _ e => mask (exportReplacement v e)) none
      ((exportedVariable : Pattern Cell (ExportedVariable Cell)).segments (cells t))).1 := by
  have hsplice := Edit.mask_splice (ordered_exportEdits v t) fun e he => by
    obtain ⟨m, hm, rfl⟩ := List.mem_map.mp he
    exact sound_exportEdit hm (hapart m hm) v
  rw [((Pattern.segmented_segments advances_exportedVariable (cells t)).rebuild_eq Cell.masked
    (fun _ e => mask (exportReplacement v e)) []).1, splitExports_text]
  refine hsplice.trans ?_
  rw [List.map_map]
  rfl

/-- What holds of each line and of what is written in its place holds of the whole script, if it
holds of lines together. -/
theorem splitExports_shown {R : Text → Text → Prop}
    (joins : ∀ {a a' b b'}, R a a' → R b b' → R (a ++ '\n' :: b) (a' ++ '\n' :: b'))
    (kept : ∀ l : List Cell, InLine l → exportedVariable none l = none →
      R (seenText l) (seenText l))
    (split : ∀ e head, ReadsExport e head →
      R (mask (exportText e head)) (mask (exportReplacement v e))) :
    R (mask t) (mask (splitExports v t).text) := by
  rw [mask_splitExports hapart]
  have hall := (lineWise_exportedVariable.forall_findAll_iff (fun gs e => ∃ head : List Cell,
      gs = e.indent ++ (head ++ (e.value ++ e.tail)) ∧ ReadsExport e head) (cells t)).mp
        fun m hm => by
    obtain ⟨head, hreads, hglyphs, -⟩ := readsExport_of_mem hm (hapart m hm)
    exact ⟨head, hglyphs, hreads⟩
  have hline {l : List Cell} (hl : InLine l) (hfound : ∀ m ∈ exportedVariable.findAll l,
    ∃ head : List Cell,
      m.glyphs = m.value.indent ++ (head ++ (m.value.value ++ m.value.tail)) ∧
      ReadsExport m.value head) :
      R (seenText l) (rebuild Cell.masked (fun _ e => mask (exportReplacement v e)) none
        ((exportedVariable : Pattern Cell (ExportedVariable Cell)).segments l)).1 := by
    cases hread : (exportedVariable none : Reader Cell _) l with
    | none =>
      rw [rebuild_of_none _ lineWise_exportedVariable rfl Cell.masked hl hread]
      exact kept l hl hread
    | some found =>
      obtain ⟨e, rest⟩ := found
      obtain ⟨hmem, hnew⟩ := rebuild_exportedVariable v hl hread
      obtain ⟨head, hglyphs, hreads⟩ := hfound _ hmem
      rw [hnew, show seenText l = mask (exportText e head) from ?_]
      · exact split e head hreads
      · rw [mask, hreads.cells_eq, ← hglyphs]
        rfl
  change R (seenText (cells t)) _
  generalize cells t = cs at hall
  induction cs using cutLines_induction with
  | last l hl =>
    rw [cutLines_of_inLine hl, List.forall_mem_singleton] at hall
    exact hline hl hall
  | more l n cs hl hn ih =>
    rw [cutLines_newline hl hn, List.forall_mem_cons] at hall
    have hn' : n.masked = '\n' := hn
    have hcut : seenText (l ++ n :: cs) = seenText l ++ '\n' :: seenText cs := by
      rw [seenText_append, ← hn]
      rfl
    rw [rebuild_newline _ lineWise_exportedVariable Cell.masked l hn cs, hn', hcut]
    exact joins (hline hl hall.1) (ih hall.2)

/-- Declaring exported variables calls nothing that the script did not call. -/
theorem mem_calls_splitExports {k : Text} (hk : k ≠ [])
    (hcalled : k ∈ calls (mask (splitExports v t).text)) : k ∈ calls (mask t) := by
  refine splitExports_shown (R := fun a a' => k ∈ calls a' → k ∈ calls a) hapart v ?_ ?_ ?_ hcalled
  · intro a a' b b' ha hb h
    have hdivides : Divides '\n' := by
      rw [Divides]
      decide
    rw [calls_append_divider hdivides, List.mem_append] at h ⊢
    exact h.imp ha hb
  · exact fun l _ _ => id
  · exact fun e head h => h.mem_calls_replacement v hk

theorem definesFunction_splitExports {k : Text} (hdefined : definesFunction (mask t) k = true) :
    definesFunction (mask (splitExports v t).text) k = true := by
  refine splitExports_shown (R := fun a a' => definesFunction a k = true →
    definesFunction a' k = true)
    hapart v ?_ ?_ ?_ hdefined
  · intro a a' b b' ha hb h
    rw [definesFunction, Text.lines_append, List.any_append, Bool.or_eq_true] at h ⊢
    exact h.imp ha hb
  · exact fun l _ _ => id
  · intro e head h hdefines
    have hone : Text.OneLine (mask (exportText e head)) := by
      rw [mask, h.cells_eq]
      exact fun k => by
        obtain ⟨c, hc, hn⟩ := List.mem_map.mp k
        exact h.inLine c hc hn
    have hnone : functionDefinition.readAt? (mask (exportText e head)) = none :=
      congrArg (Option.map Prod.fst) h.functionDefinition_none
    rw [definesFunction, Text.lines_of_oneLine hone, List.any_cons, hnone] at hdefines
    cases hdefines

/-- Once exported variables are declared none is left. -/
theorem exportedVariables_splitExports : exportedVariables (splitExports v t).text = [] := by
  have hline : (exportedVariable : Pattern Char _).LineWise := lineWise_exportedVariable
  have hnone : (exportedVariable : Pattern Char _).findAll (mask (splitExports v t).text) = [] := by
    refine splitExports_shown (R := fun _ a' => (exportedVariable : Pattern Char _).findAll a' = [])
      hapart v ?_ ?_ ?_
    · intro a a' b b' ha hb
      have hn : Glyph.seen '\n' = '\n' := rfl
      rw [hline.findAll_newline a' hn b', ha, hb]
      rfl
    · intro l hl h
      rw [Pattern.findAll_seen exportedVariable_seen, findAll_exportedVariable hl h]
      rfl
    · exact fun e head h => h.findAll_replacement v
  have hseen := Pattern.findAll_seen exportedVariable_seen (cells (splitExports v t).text)
  exact List.map_eq_nil_iff.mp (hseen.symm.trans hnone)

theorem callsOf_splitExports {k : Text} (hk : IsName k) (h : callsOf k t = []) :
    callsOf k (splitExports v t).text = [] := by
  rw [callsOf_eq_nil_iff hk] at h ⊢
  exact fun hcalled => h (mem_calls_splitExports hapart v hk.1 hcalled)

theorem Idle.splitExports {k : Text} (hk : IsName k) (h : Idle k t) :
    Idle k (splitExports v t).text :=
  h.imp (definesFunction_splitExports hapart v) (callsOf_splitExports hapart v hk)

end Script

end PineTools.Repair
