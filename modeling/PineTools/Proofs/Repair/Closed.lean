import PineTools.Proofs.Repair.Versions
import PineTools.Proofs.Scan.Balance
import PineTools.Proofs.Scan.Nesting
import PineTools.Proofs.Scan.Respelling

/-! What the structural repairs have closed stays closed. A later repair replaces stretches of code,
and what it writes closes its literals and shows the brackets that the stretches showed. -/
namespace PineTools

open Mode

/-- Whether a literal stays open does not depend on the numbers of the lines. -/
theorem closed_renumbered {m : Mode} {t : Text} {number : Nat} (h : unclosedFrom m number t = [])
    (number' : Nat) : unclosedFrom m number' t = [] := by
  induction t generalizing m number number' with
  | nil =>
    rw [unclosedFrom_nil, openAt_eq_nil_iff] at h ⊢
    exact h
  | cons c cs ih =>
    rw [unclosedFrom_step, List.append_eq_nil_iff] at h ⊢
    refine ⟨?_, ih h.2 _⟩
    split
    case isTrue hc =>
      rw [if_pos hc, openAt_eq_nil_iff] at h
      exact openAt_eq_nil_iff.mpr h.1
    case isFalse => rfl

section Lands

variable {m : Mode} {t : Text} (h : Lands m t.head?) {number : Nat}
include h

theorem closed_behind (hclosed : unclosedFrom m number t = []) :
    unclosedFrom .start number t = [] := by
  cases t with
  | nil => rfl
  | cons c cs =>
    rw [unclosedFrom_step, List.append_eq_nil_iff, h.step] at hclosed
    rw [unclosedFrom_step, List.append_eq_nil_iff]
    exact ⟨by split <;> rfl, hclosed.2⟩

theorem closed_from (hm : ∀ q, m ≠ .literal q) (hclosed : unclosedFrom .start number t = []) :
    unclosedFrom m number t = [] := by
  cases t with
  | nil => rwa [unclosedFrom_nil, openAt_eq_nil_iff]
  | cons c cs =>
    rw [unclosedFrom_step, List.append_eq_nil_iff] at hclosed
    rw [unclosedFrom_step, List.append_eq_nil_iff, h.step]
    refine ⟨?_, hclosed.2⟩
    split
    · exact openAt_eq_nil_iff.mpr hm
    · rfl

end Lands

section Stretch

variable {m : Mode} {a t : Text} (begins : Bare m (a ++ t).head?)
  (reads : ReadsAlike .start a none t.head?)
include begins reads

theorem cellsFrom_stretch (lands : Lands (Mode.start.after none a) t.head?) :
    cellsFrom m (a ++ t) = cells a ++ cellsFrom .start t := by
  rw [cellsFrom_lands (.inl begins), cellsFrom_append, ← reads.1, ← reads.2, cellsUpTo_none,
    cellsFrom_lands lands]
  rfl

theorem closed_stretch_iff (number : Nat) : unclosedFrom m number (a ++ t) = [] ↔
    unclosedUpTo .start number a = [] ∧
      unclosedFrom (Mode.start.after none a) (number + a.count '\n') t = [] := by
  rw [begins.unclosedFrom, unclosedFrom_append, reads.2, List.append_eq_nil_iff]

end Stretch

namespace Revises

variable {m : Mode} {t t' : Text} {swaps : List Swap} (h : Revises m t t' swaps)
include h

theorem closed (hnew : ∀ s ∈ swaps, unclosedLiterals s.new = []) {number : Nat}
    (hclosed : unclosedFrom m number t = []) : unclosedFrom m number t' = [] := by
  induction h generalizing number with
  | done => exact hclosed
  | keep same rest ih =>
    rw [unclosedFrom_step, List.append_eq_nil_iff] at hclosed ⊢
    rw [same]
    exact ⟨hclosed.1, ih hnew hclosed.2⟩
  | @swap m old new t t' swaps begins begins' reads reads' lands lands' rest ih =>
    obtain ⟨hfirst, hnew⟩ := List.forall_mem_cons.mp hnew
    rw [closed_stretch_iff begins reads] at hclosed
    have hwritten := closed_renumbered hfirst number
    rw [unclosedFrom_eq, List.append_eq_nil_iff, openAt_eq_nil_iff] at hwritten
    have hrest := ih hnew (closed_behind lands hclosed.2)
    exact (closed_stretch_iff begins' reads' number).mpr
      ⟨hwritten.1, closed_from lands' hwritten.2 (closed_renumbered hrest _)⟩

/-- A revision shows the signs of a kind as the script does if it writes those that it takes away.
-/
theorem filter_eq (p : Char → Bool)
    (hswaps : ∀ s ∈ swaps, (mask s.new).filter p = (mask s.old).filter p) :
    ((cellsFrom m t').map Cell.masked).filter p =
      ((cellsFrom m t).map Cell.masked).filter p := by
  induction h with
  | done => rfl
  | keep same rest ih =>
    rw [cellsFrom, cellsFrom, same, List.map_cons, List.map_cons, List.filter_cons,
      List.filter_cons, ih hswaps]
  | @swap m old new t t' swaps begins begins' reads reads' lands lands' rest ih =>
    obtain ⟨hfirst, hrest⟩ := List.forall_mem_cons.mp hswaps
    rw [cellsFrom_stretch begins reads lands, cellsFrom_stretch begins' reads' lands',
      List.map_append, List.map_append, List.filter_append, List.filter_append, ih hrest]
    exact congrArg (· ++ _) hfirst

end Revises

/-- The brackets that the mask shows tell how many are misplaced and how many stay open. -/
theorem counts_of_brackets {t t' : Text} (h : brackets (mask t') = brackets (mask t)) :
    (matchBrackets t').issues.length = (matchBrackets t).issues.length ∧
      (matchBrackets t').unclosed.length = (matchBrackets t).unclosed.length := by
  have hcount (t : Text) :
      ((matchBrackets t).issues.length, (matchBrackets t).unclosed.length) =
        bracketCounts [] ((brackets (mask t)).map codeCell) := by
    have hmasked := bracketCounts_masked [] fun c (hc : c ∈ cells t) => code_of_bracket hc
    have hcounts := bracketsFrom_counts [] 1 (cells t)
    rw [List.map_nil, hmasked] at hcounts
    exact hcounts
  exact Prod.mk.inj ((hcount t').trans ((congrArg _ (congrArg _ h)).trans (hcount t).symm))

theorem mask_append_white {z white : Text} (hwhite : ∀ c ∈ white, Text.isSpace c = true ∧ c ≠ '\n')
    (h : (Mode.start.after none (z ++ white)).inCode = true) :
    mask (z ++ white) = mask z ++ white := by
  cases white with
  | nil => rw [List.append_nil, List.append_nil]
  | cons c cs =>
    obtain ⟨b, hb⟩ := code_before_white hwhite h
    have hc := (hwhite c List.mem_cons_self).1
    have htame : ∀ d ∈ c :: cs, Tame d := fun d hd => tame_of_white (hwhite d hd).1
    have hbare : Bare (.code b) (c :: cs).head? := (tame_of_white hc).bare b
    rw [mask, cells, cellsFrom_append, List.head?_cons, cellsUpTo_quiet_ahead _ (quiet_of_white hc),
      hb, cellsFrom_lands (.inl hbare), List.map_append]
    exact congrArg _ (mask_tame htame)

/-- White space around a line that ends in code is shown as it is. -/
theorem mask_strip {x : Text} (hx : Text.OneLine x) (h : (Mode.start.after none x).inCode = true) :
    ∃ lead trail, (∀ c ∈ lead, Text.isSpace c = true) ∧ (∀ c ∈ trail, Text.isSpace c = true) ∧
      mask x = lead ++ (mask (Text.strip x) ++ trail) := by
  have hlead : ∀ c ∈ x.takeWhile Text.isSpace, Text.isSpace c = true :=
    fun c hc => List.all_eq_true.mp List.all_takeWhile c hc
  have htame : ∀ c ∈ x.takeWhile Text.isSpace, Tame c := fun c hc => tame_of_white (hlead c hc)
  have hsplit : x.takeWhile Text.isSpace ++ Text.trimLeft Text.isSpace x = x :=
    List.takeWhile_append_dropWhile
  obtain ⟨trail, htrim, htrail⟩ :=
    Text.trimRight_append_white Text.isSpace (Text.trimLeft Text.isSpace x)
  refine ⟨x.takeWhile Text.isSpace, trail, hlead, htrail, ?_⟩
  have hline : ∀ c ∈ trail, Text.isSpace c = true ∧ c ≠ '\n' := by
    refine fun c hc => ⟨htrail c hc, ?_⟩
    rintro rfl
    exact hx (hsplit ▸ List.mem_append_right _ (htrim ▸ List.mem_append_right _ hc))
  have hafter := (notes_trimLeft x).2
  rw [htrim] at hafter
  have hshown := mask_append_white hline (by rw [hafter]; exact h)
  calc mask x
      = mask (x.takeWhile Text.isSpace ++ Text.trimLeft Text.isSpace x) := by rw [hsplit]
    _ = x.takeWhile Text.isSpace ++ mask (Text.trimLeft Text.isSpace x) :=
        mask_tame_append htame _
    _ = x.takeWhile Text.isSpace ++ (mask (Text.strip x) ++ trail) := by
        rw [htrim, hshown]
        rfl

/-- White space at the ends of a line hides neither an open comment nor an open literal. -/
theorem ends_strip {x : Text} (hx : Text.OneLine x) :
    (Mode.start.after none (Text.strip x)).inBlock = (Mode.start.after none x).inBlock ∧
      (Mode.start.after none (Text.strip x)).inLiteral = (Mode.start.after none x).inLiteral := by
  obtain ⟨white, htrim, hwhite⟩ :=
    Text.trimRight_append_white Text.isSpace (Text.trimLeft Text.isSpace x)
  have hline : ∀ c ∈ white, Text.isSpace c = true ∧ c ≠ '\n' := by
    refine fun c hc => ⟨hwhite c hc, ?_⟩
    rintro rfl
    exact hx ((List.dropWhile_sublist _).mem (htrim ▸ List.mem_append_right _ hc))
  have hsame := @substance_append_white .start rfl (Text.strip x) white hline
  have hjoin : Text.strip x ++ white = Text.trimLeft Text.isSpace x := htrim.symm
  rw [hjoin, substance_singleton, substance_singleton, (notes_trimLeft x).2,
    Substance.mk.injEq] at hsame
  refine ⟨hsame.2.2.2.symm, ?_⟩
  have hopen := hsame.2.2.1
  cases hl : (Mode.start.after none x).inLiteral <;>
    cases hl' : (Mode.start.after none (Text.strip x)).inLiteral <;> rw [hl, hl'] at hopen <;>
    first | rfl | cases hopen

/-- What a line shows without the white space at its ends it shows with it. -/
theorem mem_mask_strip {x : Text} {c : Char} (h : c ∈ mask (Text.strip x)) : c ∈ mask x := by
  have hlead : ∀ d ∈ x.takeWhile Text.isSpace, Tame d :=
    fun d hd => tame_of_white (List.all_eq_true.mp List.all_takeWhile d hd)
  have hsplit : x.takeWhile Text.isSpace ++ Text.trimLeft Text.isSpace x = x :=
    List.takeWhile_append_dropWhile
  rw [← hsplit, mask_tame_append hlead]
  refine List.mem_append_right _ ?_
  obtain ⟨white, htrim, hwhite⟩ :=
    Text.trimRight_append_white Text.isSpace (Text.trimLeft Text.isSpace x)
  cases white with
  | nil =>
    rw [List.append_nil] at htrim
    exact htrim ▸ h
  | cons d white =>
    rw [htrim, mask, cells, cellsFrom_append, List.head?_cons,
      cellsUpTo_quiet_ahead _ (quiet_of_white (hwhite d List.mem_cons_self)), List.map_append]
    exact List.mem_append_left _ h

/-- Behind a line that leaves no comment open the mask begins anew. -/
theorem mask_newline {x : Text} (hx : (Mode.start.after none x).inBlock = false) (y : Text) :
    mask (x ++ '\n' :: y) = mask x ++ '\n' :: mask y := by
  have hentry : (Mode.start.after none x).entry = .start := by
    rw [entry, hx]
    rfl
  rw [mask, cells, cellsFrom_newline rfl, hentry, List.map_append, List.map_cons]
  rfl

/-- Where nothing is left open no literal is open at the end of a line. -/
theorem not_inLiteral_of_closed {t : Text} (h : unclosedLiterals t = []) {i : Nat}
    (hend : (t.drop i).head? = none ∨ (t.drop i).head? = some '\n') :
    (modeAt t i).inLiteral = false := by
  have hsettled := settled_modeAt hend
  have hopen : ∀ q, modeAt t i ≠ .literal q := by
    have hsplit := unclosedFrom_append .start 1 (t.take i) (t.drop i)
    rw [List.take_append_drop, ← unclosedLiterals, h] at hsplit
    have hrest := (List.append_eq_nil_iff.mp hsplit.symm).2
    rw [← modeAt] at hrest
    rcases hend with e | e
    · rw [List.head?_eq_none_iff.mp e, unclosedFrom_nil, openAt_eq_nil_iff] at hrest
      exact hrest
    · obtain ⟨rest, e⟩ := List.head?_eq_some_iff.mp e
      rw [e, unclosedFrom_step, List.append_eq_nil_iff, if_pos rfl, openAt_eq_nil_iff] at hrest
      exact hrest.1
  cases hm : modeAt t i with
  | literal q => exact absurd hm (hopen q)
  | escaped q =>
    rw [hm] at hsettled
    cases hsettled
  | code | line | lineSecond | block | blockSecond | blockLast => rfl

namespace Repair

theorem unclosedLiterals_of_inCode {l : Text} (hl : Text.OneLine l)
    (h : (Mode.start.after none l).inCode = true) : unclosedLiterals l = [] := by
  obtain ⟨b, hb⟩ := exists_code_of_inCode h
  rw [unclosedLiterals, unclosedFrom_last hl, hb]
  rfl

theorem brackets_of_blank {gs : List Cell} (h : ∀ c ∈ gs, Text.isBlank c.masked = true) :
    brackets (gs.map Cell.masked) = [] :=
  brackets_of_none (List.forall_mem_map.mpr fun c hc =>
    isBracket_white (Text.isSpace_of_isBlank (h c hc)))

/-- Nothing is open in the script but perhaps a block comment. -/
structure Closed (t : Text) : Prop where
  literals : unclosedLiterals t = []
  brackets : (matchBrackets t).unclosed = []

/-- A stretch is replaced by closed text that shows the same brackets. -/
structure SwapsClosed (s : Swap) : Prop where
  literals : unclosedLiterals s.new = []
  brackets : PineTools.brackets (mask s.new) = PineTools.brackets (mask s.old)

section Revised

variable {t t' : Text} {swaps : List Swap} (h : Closed t) (hrev : Revises .start t t' swaps)
  (hswaps : ∀ s ∈ swaps, SwapsClosed s)
include h hrev hswaps

theorem Closed.revised : Closed t' := by
  have hcounts := counts_of_brackets (hrev.filter_eq isBracket fun s hs => (hswaps s hs).brackets)
  rw [h.brackets, List.length_nil, List.length_eq_zero_iff] at hcounts
  exact ⟨hrev.closed (fun s hs => (hswaps s hs).literals) h.literals, hcounts.2⟩

/-- The brackets that misfit are as many as before, and an open comment stays open. -/
theorem Closed.imbalance_revised : structuralImbalance t' = structuralImbalance t := by
  have hcounts := counts_of_brackets (hrev.filter_eq isBracket fun s hs => (hswaps s hs).brackets)
  have hcomment : (openComment? t').isSome = (openComment? t).isSome := by
    rw [openComment?_isSome_iff, openComment?_isSome_iff, modeAt_length, modeAt_length]
    exact hrev.inBlock_after
  rw [structuralImbalance, structuralImbalance, (h.revised hrev hswaps).literals, h.literals,
    hcounts.1, hcounts.2, hcomment]

end Revised

theorem closed_separator : unclosedLiterals separator = [] := by decide

theorem brackets_separator : brackets (mask separator) = [] := by decide

theorem swapsClosed_inputs (t : Text) :
    ∀ s ∈ (commalessInputs t).map fun m => (⟨writtenText m.value.gap, separator⟩ : Swap),
      SwapsClosed s := by
  refine List.forall_mem_map.mpr fun m hm => ⟨closed_separator, ?_⟩
  obtain ⟨a, rest, x, y, hgap, -⟩ := gap_of_input hm
  have hcells : mask (writtenText m.value.gap) = m.value.gap.map Cell.masked :=
    congrArg (List.map Cell.masked) hgap.cells_gap
  rw [hcells, brackets_of_blank hgap.blank]
  exact brackets_separator

/-- Commas are put in where blanks stand, so an argument list keeps all other signs. -/
theorem filter_insertCommas {p : Char → Bool} (hwhite : ∀ c, Text.isSpace c = true → p c = false)
    (hcomma : p ',' = false) {args : Text} (hone : Text.OneLine args)
    (hcode : (Mode.start.after none args).inCode = true) :
    (mask (insertCommas args (mask args))).filter p = (mask args).filter p := by
  have hrev := fillGaps_revises args
  have hseparator : (mask separator).filter p = [] := by
    rw [show mask separator = separator by decide]
    exact filter_of_none (List.forall_mem_cons.mpr
      ⟨hcomma, List.forall_mem_singleton.mpr (hwhite ' ' (by decide))⟩)
  have hfilled :
    (mask (fillGaps args 0 ((tokenGaps args).map fun m => (m.start + 1, m.stop)))).filter p =
      (mask args).filter p := hrev.filter_eq p (List.forall_mem_map.mpr fun m hm => by
    obtain ⟨a, gap, rest, x, y, hgap, hstart, hstop⟩ := gap_of_tokenGap hm
    have hcells : mask (writtenText gap) = gap.map Cell.masked :=
      congrArg (List.map Cell.masked) hgap.cells_gap
    rw [hstart, hstop, hgap.slice, hcells, hseparator]
    exact (filter_of_none (List.forall_mem_map.mpr fun c hc =>
      hwhite _ (Text.isSpace_of_isBlank (hgap.blank c hc)))).symm)
  have hend : (Mode.start.after none
      (fillGaps args 0 ((tokenGaps args).map fun m => (m.start + 1, m.stop)))).inCode = true := by
    rw [hrev.inCode_after, hcode]
    exact List.forall_mem_map.mpr fun m hm => ⟨(sound_gapEdit hm).2.1, rfl⟩
  obtain ⟨lead, trail, hlead, htrail, hmask⟩ := mask_strip (oneLine_fillGaps hone) hend
  rw [← hfilled, hmask, List.filter_append, List.filter_append,
    filter_of_none fun c hc => hwhite c (hlead c hc),
    filter_of_none fun c hc => hwhite c (htrail c hc), List.append_nil, List.nil_append]
  rfl

theorem swapsClosed_arguments (t : Text) :
    ∀ s ∈ (missingCommas t).map fun call =>
        (⟨argsOf t call, insertCommas (argsOf t call) (mask (argsOf t call))⟩ : Swap),
      SwapsClosed s := by
  refine List.forall_mem_map.mpr fun call hcall => ?_
  obtain ⟨a, args, rest, x, y, hargs⟩ := callArguments_of_mem hcall
  have harg : argsOf t call = writtenText args := hargs.slice
  rw [harg]
  obtain ⟨hcode, -, -⟩ := insertCommas_notes hargs.oneLine hargs.inCode_args
  exact ⟨unclosedLiterals_of_inCode (oneLine_strip (oneLine_fillGaps hargs.oneLine)) hcode,
    filter_insertCommas (fun _ => isBracket_white) (by decide) hargs.oneLine hargs.inCode_args⟩

theorem Closed.insertMissingCommas {t : Text} (h : Closed t) :
    Closed (insertMissingCommas t).text ∧
      structuralImbalance (insertMissingCommas t).text = structuralImbalance t := by
  have hinputs := h.revised (separateInputs_revises t) (swapsClosed_inputs t)
  have hcalls := separateArguments_revises (separateInputs t).text
  exact ⟨hinputs.revised hcalls (swapsClosed_arguments _),
    (hinputs.imbalance_revised hcalls (swapsClosed_arguments _)).trans
      (h.imbalance_revised (separateInputs_revises t) (swapsClosed_inputs t))⟩

theorem isBracket_of_isWordOrDot {c : Char} (h : Text.isWordOrDot c = true) :
    isBracket c = false := by
  have hopener : Bracket.ofOpener? c = none := by
    refine Option.eq_none_iff_forall_ne_some.mpr fun k hk => ?_
    rw [Bracket.ofOpener?_eq_some.mp hk] at h
    cases k <;> exact absurd h (by decide)
  have hcloser : Bracket.ofCloser? c = none := by
    refine Option.eq_none_iff_forall_ne_some.mpr fun k hk => ?_
    rw [Bracket.ofCloser?_eq_some.mp hk] at h
    cases k <;> exact absurd h (by decide)
  rw [isBracket, hopener, hcloser]
  rfl

theorem swapsClosed_of_names {name new : Text} (hname : IsName name) (hnew : IsName new) :
    SwapsClosed ⟨name, new⟩ := by
  have hnone {w : Text} (hw : IsName w) : brackets (mask w) = [] := by
    rw [mask_tame hw.tame]
    exact brackets_of_none fun c hc => isBracket_of_isWordOrDot (hw.2 c hc)
  exact ⟨unclosedLiterals_of_inCode hnew.oneLine (by rw [after_tame hnew.tame]; rfl),
    (hnone hnew).trans (hnone hname).symm⟩

theorem keptByRenames_closed (n : Nat) :
    KeptByRenames fun t => Closed t ∧ structuralImbalance t = n := by
  intro name new t hname hnew ⟨h, hn⟩
  have hswaps : ∀ s ∈ (callsOf name t).map fun _ => (⟨name, new⟩ : Swap), SwapsClosed s :=
    List.forall_mem_map.mpr fun _ _ => swapsClosed_of_names hname hnew
  have hrev := renameCalls_revises hname hnew t
  exact ⟨h.revised hrev hswaps, (h.imbalance_revised hrev hswaps).trans hn⟩

end Repair

end PineTools
