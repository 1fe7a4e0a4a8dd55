import PineTools.Proofs.Repair.SplitExports

/-! No repair makes an exported variable. Such a line is told by what stands in front of its sign,
where nothing is called, and by the semicolon behind its value. Commas are put in behind
parentheses, and calls are moved by their names. -/
namespace PineTools

open Reader

/-- What stands in front of the sign of an exported variable: its indentation, kind and name. -/
def exportOpening : Reader Char (Text × Text × Text) := do
  let indent ← blanks
  discard <| word "export"
  discard blanks1
  let kind ← firstOf (exportKinds.map word)
  discard blanks1
  let name ← name
  discard blanks
  return (indent, kind, name)

/-- What stands behind the sign: the value, and what closes it. -/
def exportEnd : Reader Char (Text × Text) := do
  discard blanks
  let body ← run fun c => c != ';' && c != '\n'
  let closing ← exportClosing
  endOf (· != '\n')
  return (body, closing)

theorem exportedVariable_none_eq :
    (exportedVariable none : Reader Char (ExportedVariable Char)) = (do
      let (indent, kind, name) ← exportOpening
      discard assign
      let (body, closing) ← exportEnd
      let value := Text.trimRight Text.isBlank body
      return ⟨indent, kind, name, value, body.drop value.length ++ closing⟩) := by
  simp only [exportOpening, exportEnd, bind_assoc, pure_bind]
  rfl

theorem trims_exportOpening : Trims exportOpening := by
  refine (trims_run _).bind fun _ => (eats_word (by decide)).trims.discard.bind fun _ => ?_
  refine (eats_run1 _).trims.discard.bind fun _ => (eats_firstOf fun r hr => ?_).trims.bind fun _ =>
    (eats_run1 _).trims.discard.bind fun _ => eats_name.trims.bind fun _ =>
      (trims_run _).discard.bind fun _ => trims_pure _
  have hkinds : ∀ w ∈ exportKinds, w.toList ≠ [] := by decide
  obtain ⟨w, hw, rfl⟩ := List.mem_map.mp hr
  exact eats_word (hkinds w hw)

theorem haltsAt_exportOpening {c : Char} (hc : c = '=' ∨ c = '(') : HaltsAt c exportOpening := by
  have hblank : Text.isBlank c = false := by rcases hc with rfl | rfl <;> decide
  have hword : Text.isNameStart c = false ∧ Text.isWord c = false := by
    rcases hc with rfl | rfl <;> decide
  have hkinds : c ∉ "export".toList ∧ ∀ w ∈ exportKinds, c ∉ w.toList := by
    rcases hc with rfl | rfl <;> decide
  refine (haltsAt_run hblank).bind fun _ => (haltsAt_word hkinds.1).discard.bind fun _ => ?_
  refine (haltsAt_run1 hblank).discard.bind fun _ => (haltsAt_firstOf fun r hr => ?_).bind
    fun _ => (haltsAt_run1 hblank).discard.bind fun _ => (haltsAt_name hword.1 hword.2).bind
      fun _ => (haltsAt_run hblank).discard.bind fun _ => haltsAt_pure _
  obtain ⟨w, hw, rfl⟩ := List.mem_map.mp hr
  exact haltsAt_word (hkinds.2 w hw)

theorem not_mem_exportOpening {front : Text} {v : Text × Text × Text}
    (h : exportOpening front = some (v, [])) : '=' ∉ front ∧ '(' ∉ front := by
  have hnone {c : Char} (hc : c = '=' ∨ c = '(') : c ∉ front := fun k => by
    obtain ⟨x, y, rfl⟩ := List.append_of_mem k
    have hhalt := haltsAt_exportOpening hc x c y rfl
    rw [h] at hhalt
    obtain ⟨p, -, e⟩ := Option.map_eq_some_iff.mp hhalt.symm
    exact absurd (congrArg Prod.snd e) (by simp)
  exact ⟨hnone (.inl rfl), hnone (.inr rfl)⟩

/-- Behind a semicolon nothing but blanks shows. -/
def closes : Text → Bool
  | [] => true
  | c :: t => if c = ';' then t.all Text.isBlank else closes t

theorem closes_append {a : Text} (ha : ';' ∉ a) (t : Text) : closes (a ++ t) = closes t := by
  induction a with
  | nil => rfl
  | cons c a ih =>
    have hc : c ≠ ';' := fun e => ha (List.mem_cons.mpr (.inl e.symm))
    rw [List.cons_append, closes, if_neg hc, ih fun k => ha (List.mem_cons_of_mem c k)]

theorem blank_of_closes {a t : Text} (ha : ';' ∈ a) (h : closes (a ++ t) = true) :
    ∀ c ∈ t, Text.isBlank c = true := by
  induction a with
  | nil => exact absurd ha List.not_mem_nil
  | cons c a ih =>
    rw [List.cons_append, closes] at h
    split at h
    case isTrue => exact (List.forall_mem_append.mp (List.all_eq_true.mp h)).2
    case isFalse hc => exact ih ((List.mem_cons.mp ha).resolve_left fun e => hc e.symm) h

theorem closes_iff {t : Text} : closes t = true ↔ ∃ body closing, t = body ++ closing ∧
    ';' ∉ body ∧ (closing = [] ∨ ∃ w, closing = ';' :: w ∧ ∀ c ∈ w, Text.isBlank c = true) := by
  constructor
  · intro h
    induction t with
    | nil => exact ⟨[], [], rfl, List.not_mem_nil, .inl rfl⟩
    | cons c t ih =>
      rw [closes] at h
      split at h
      case isTrue hc => exact ⟨[], c :: t, rfl, List.not_mem_nil, .inr ⟨t, by rw [hc],
          List.all_eq_true.mp h⟩⟩
      case isFalse hc =>
        obtain ⟨body, closing, rfl, hbody, hclosing⟩ := ih h
        refine ⟨c :: body, closing, rfl, fun k => ?_, hclosing⟩
        rcases List.mem_cons.mp k with e | k
        · exact hc e.symm
        · exact hbody k
  · rintro ⟨body, closing, rfl, hbody, rfl | ⟨w, rfl, hw⟩⟩
    · rw [closes_append hbody]
      rfl
    · rw [closes_append hbody, closes, if_pos rfl]
      exact List.all_eq_true.mpr hw

theorem blanks_all {w : Text} (hw : ∀ c ∈ w, Text.isBlank c = true) : blanks w = some (w, []) := by
  have hrun : run Text.isBlank (w ++ []) = some (w, []) := run_append hw fun c hc => by cases hc
  rwa [List.append_nil] at hrun

theorem exportClosing_all {z : Text} (hz : z = [] ∨ ∃ w, z = ';' :: w ∧ ∀ c ∈ w,
    Text.isBlank c = true) : exportClosing z = some (z, []) := by
  rcases hz with rfl | ⟨w, rfl, hw⟩
  · rfl
  · have hsemicolon : run (· == ';') (';' :: w) = some ([';'], w) :=
      run_append (v := [';']) (by decide) fun c hc => by
        have hblank := hw c (List.mem_of_head? hc)
        refine beq_false_of_ne ?_
        rintro rfl
        exact absurd hblank (by decide)
    exact inTurn_cons_eq_some.mpr ⟨[';'], w, w, bind_eq_some.mpr ⟨_, _, hsemicolon, rfl⟩,
      inTurn_singleton_eq_some.mpr (blanks_all hw), rfl⟩

theorem closes_of_exportEnd {t : Text} (ht : Text.OneLine t) {r : (Text × Text) × Text}
    (h : exportEnd t = some r) : closes t = true := by
  obtain ⟨white, rest₁, hwhite, h⟩ := discard_bind_eq_some.mp h
  obtain ⟨body, rest₂, hbody, h⟩ := bind_eq_some.mp h
  obtain ⟨closing, rest₃, hclosing, h⟩ := bind_eq_some.mp h
  obtain ⟨_, rest₄, hend, -⟩ := bind_eq_some.mp h
  obtain ⟨rfl, isWhite⟩ := takes_run _ hwhite
  obtain ⟨rfl, isBody⟩ := takes_run _ hbody
  obtain ⟨rfl, semicolon, after, rfl, hlength, isSemicolon, isAfter⟩ :=
    exportClosing_eq_some hclosing
  obtain rfl : rest₃ = [] := by
    rcases (endOfLine_eq_some hend).2 with e | ⟨g, gs, rfl, hg⟩
    · exact e
    · obtain rfl : g = '\n' := hg
      exact absurd (by simp) ht
  have hfree {x : Text} (hx : ∀ c ∈ x, Text.isBlank c = true) : ';' ∉ x := fun k =>
    absurd (hx _ k) (by decide)
  have hfront : ';' ∉ white ++ body := fun k => by
    rcases List.mem_append.mp k with k | k
    · exact hfree isWhite k
    · exact absurd (isBody _ k) (by decide)
  rw [List.append_nil, ← List.append_assoc]
  rcases semicolon with - | ⟨c, - | ⟨d, more⟩⟩
  · refine closes_iff.mpr ⟨white ++ body ++ after, [], (List.append_nil _).symm, fun k => ?_,
      .inl rfl⟩
    exact (List.mem_append.mp k).elim hfront (hfree isAfter)
  · obtain rfl : c = ';' := isSemicolon c List.mem_cons_self
    exact closes_iff.mpr ⟨white ++ body, ';' :: after, rfl, hfront, .inr ⟨after, rfl, isAfter⟩⟩
  · simp at hlength

theorem exportEnd_of_closes {t : Text} (ht : Text.OneLine t) (h : closes t = true) :
    ∃ r, exportEnd t = some r := by
  obtain ⟨body, closing, rfl, hbody, hclosing⟩ := closes_iff.mp h
  have hsplit : body.takeWhile Text.isBlank ++ body.dropWhile Text.isBlank = body :=
    List.takeWhile_append_dropWhile
  have hstops : ∀ c, closing.head? = some c → c = ';' := fun c hc => by
    rcases hclosing with rfl | ⟨w, rfl, -⟩
    · cases hc
    · exact (Option.some.inj hc).symm
  have hblanks :
      blanks (body.takeWhile Text.isBlank ++ (body.dropWhile Text.isBlank ++ closing)) =
        some (body.takeWhile Text.isBlank, body.dropWhile Text.isBlank ++ closing) := by
    refine run_append (fun c hc => List.all_eq_true.mp List.all_takeWhile c hc) fun c hc => ?_
    cases hrest : body.dropWhile Text.isBlank with
    | nil =>
      rw [hrest, List.nil_append] at hc
      rw [hstops c hc]
      decide
    | cons d more =>
      rw [hrest, List.cons_append] at hc
      obtain rfl := Option.some.inj hc
      have hd := List.head?_dropWhile_not Text.isBlank body
      rw [hrest] at hd
      exact hd
  have hread : run (fun c => c != ';' && c != '\n') (body.dropWhile Text.isBlank ++ closing) =
      some (body.dropWhile Text.isBlank, closing) := by
    refine run_append (fun c hc => ?_) fun c hc => by rw [hstops c hc]; decide
    have hmem : c ∈ body := (List.dropWhile_sublist _).mem hc
    have hn : c ≠ '\n' := by
      rintro rfl
      exact ht (List.mem_append_left _ hmem)
    have hc' : c ≠ ';' := by
      rintro rfl
      exact hbody hmem
    rw [Bool.and_eq_true, bne_iff_ne, bne_iff_ne]
    exact ⟨hc', hn⟩
  rw [← hsplit, List.append_assoc]
  exact ⟨_, discard_bind_eq_some.mpr ⟨_, _, hblanks, bind_eq_some.mpr ⟨_, _, hread,
    bind_eq_some.mpr ⟨_, _, exportClosing_all hclosing, bind_eq_some.mpr ⟨(), [], rfl, rfl⟩⟩⟩⟩⟩

theorem exportEnd_isSome_iff {t : Text} (ht : Text.OneLine t) :
    (exportEnd t).isSome = true ↔ closes t = true := by
  rw [Option.isSome_iff_exists]
  exact ⟨fun ⟨_, h⟩ => closes_of_exportEnd ht h, exportEnd_of_closes ht⟩

/-- An exported variable is told by what stands in front of its sign, and by what closes it. -/
theorem exportedVariable_isSome_iff {l : Text} (hl : Text.OneLine l) :
    (exportedVariable none l).isSome = true ↔ ∃ front behind v, l = front ++ '=' :: behind ∧
      exportOpening front = some (v, []) ∧ behind.head? ≠ some '=' ∧ closes behind = true := by
  rw [exportedVariable_none_eq, Option.isSome_iff_exists]
  constructor
  · rintro ⟨r, h⟩
    obtain ⟨⟨indent, kind, name⟩, rest₁, hopening, h⟩ := bind_eq_some.mp h
    obtain ⟨sign, behind, hassign, h⟩ := discard_bind_eq_some.mp h
    obtain ⟨w, rest₂, hend, -⟩ := bind_eq_some.mp h
    obtain ⟨front, rfl⟩ := trims_exportOpening hopening
    obtain ⟨sign', rest, hone, hsecond⟩ := bind_eq_some.mp hassign
    obtain ⟨rfl, hsign⟩ := one_eq_some.mp hone
    obtain ⟨_, _, hlone, hsecond⟩ := bind_eq_some.mp hsecond
    obtain ⟨hnext, e⟩ := endOf_eq_some.mp hlone
    cases e
    cases pure_eq_some.mp hsecond
    obtain rfl : sign = '=' := beq_iff_eq.mp hsign
    have hfront := haltsAt_exportOpening (.inl rfl) front '=' behind rfl
    rw [hopening] at hfront
    obtain ⟨⟨v, rest⟩, hv, e⟩ := Option.map_eq_some_iff.mp hfront.symm
    obtain ⟨rfl, hrest⟩ := Prod.mk.inj e
    obtain rfl : rest = [] :=
      List.eq_nil_of_length_eq_zero (by simpa using congrArg List.length hrest)
    have hline : Text.OneLine behind := (Text.oneLine_append.mp hl).2.tail
    refine ⟨front, behind, _, rfl, hv, fun k => ?_,
      (exportEnd_isSome_iff hline).mp (Option.isSome_iff_exists.mpr ⟨_, hend⟩)⟩
    exact absurd (hnext '=' k) (by decide)
  · rintro ⟨front, behind, ⟨indent, kind, name⟩, rfl, hopening, hsign, hcloses⟩
    have hline : Text.OneLine behind := (Text.oneLine_append.mp hl).2.tail
    obtain ⟨⟨⟨body, closing⟩, rest⟩, hend⟩ :=
      Option.isSome_iff_exists.mp ((exportEnd_isSome_iff hline).mpr hcloses)
    have hfront := haltsAt_exportOpening (.inl rfl) front '=' behind rfl
    rw [hopening] at hfront
    have hassign : assign ('=' :: behind) = some ('=', behind) :=
      bind_eq_some.mpr ⟨'=', behind, rfl, bind_eq_some.mpr ⟨(), behind, endOf_eq_some.mpr
        ⟨fun c hc => beq_false_of_ne fun e => hsign (hc.trans (congrArg some e)), rfl⟩, rfl⟩⟩
    exact ⟨_, bind_eq_some.mpr ⟨_, _, hfront, discard_bind_eq_some.mpr ⟨_, _, hassign,
      bind_eq_some.mpr ⟨_, _, hend, rfl⟩⟩⟩⟩

namespace Repair

theorem exportedVariables_eq_nil_iff (t : Text) : exportedVariables t = [] ↔
    ∀ l ∈ Text.lines (mask t), (exportedVariable none l).isSome = false := by
  have hseen := Pattern.findAll_seen exportedVariable_seen (cells t)
  have hoccurs : exportedVariable.occursIn (mask t) =
      (Text.lines (mask t)).any fun l => (exportedVariable none l).isSome :=
    Pattern.occursIn_atLineStart (lineWise_exportedVariable.halts none) (mask t)
  have hnone : exportedVariables t = [] ↔ exportedVariable.occursIn (mask t) = false := by
    rw [Pattern.occursIn, Pattern.find?, show mask t = seenText (cells t) from rfl, hseen,
      List.head?_map, Option.isSome_map, Option.isSome_eq_false_iff, Option.isNone_iff_eq_none,
      List.head?_eq_none_iff]
    rfl
  rw [hnone, hoccurs, List.any_eq_false]
  simp only [Bool.not_eq_true]

end Repair

/-- Whether a parenthesis was opened on the line, once the character is passed. -/
def behindParen (b : Bool) (c : Char) : Bool := c != '\n' && (b || c == '(')

/-- A text and one in which something else stands behind parentheses. What changes stays on its
line, loses no semicolon and is followed by a sign. -/
inductive Reworked : Bool → Text → Text → Prop
  | done (b : Bool) : Reworked b [] []
  | keep {b : Bool} {c : Char} {old new : Text} (rest : Reworked (behindParen b c) old new) :
      Reworked b (c :: old) (c :: new)
  | span {a a' old new : Text} {c : Char} (line : '\n' ∉ a ++ a') (semicolon : ';' ∈ a → ';' ∈ a')
      (sign : Text.isBlank c = false) (inLine : c ≠ '\n') (rest : Reworked true old new) :
      Reworked true (a ++ c :: old) (a' ++ c :: new)

namespace Reworked

variable {b : Bool} {old new : Text}

theorem refl (b : Bool) (t : Text) : Reworked b t t := by
  induction t generalizing b with
  | nil => exact .done b
  | cons c t ih => exact .keep (ih _)

theorem keeps (a : Text) (h : Reworked (a.foldl behindParen b) old new) :
    Reworked b (a ++ old) (a ++ new) := by
  induction a generalizing b with
  | nil => exact h
  | cons c a ih => exact .keep (ih h)

theorem oneLine (h : Reworked b old new) (hold : Text.OneLine old) : Text.OneLine new := by
  induction h with
  | done => exact hold
  | keep _ ih =>
    have hrest := ih hold.tail
    exact fun k => (List.mem_cons.mp k).elim (fun e => hold.head e.symm) hrest
  | span line _ _ inLine _ ih =>
    obtain ⟨-, hrest⟩ := Text.oneLine_append.mp hold
    have hnew := ih hrest.tail
    refine Text.oneLine_append.mpr ⟨fun k => line (List.mem_append_right _ k), fun k => ?_⟩
    exact (List.mem_cons.mp k).elim (fun e => inLine e.symm) hnew

/-- A text is changed line by line. -/
theorem cut {l t : Text} (hl : Text.OneLine l) (h : Reworked b (l ++ '\n' :: t) new) :
    ∃ l' t', new = l' ++ '\n' :: t' ∧ Reworked b l l' ∧ Reworked false t t' := by
  generalize e : l ++ '\n' :: t = text at h
  induction h generalizing l with
  | done => exact absurd e (by simp)
  | @keep b c old new rest ih =>
    cases l with
    | nil =>
      obtain ⟨rfl, rfl⟩ := List.cons.inj e
      exact ⟨[], new, rfl, .done b, rest⟩
    | cons d l =>
      obtain ⟨rfl, hrest⟩ := List.cons.inj e
      obtain ⟨l', t', rfl, hline, hrest⟩ := ih hl.tail hrest
      exact ⟨d :: l', t', rfl, .keep hline, hrest⟩
  | @span a a' old new c line semicolon sign inLine rest ih =>
    have hnotin : '\n' ∉ a ++ [c] := fun k => by
      rcases List.mem_append.mp k with k | k
      · exact line (List.mem_append_left _ k)
      · exact inLine (List.mem_singleton.mp k).symm
    obtain ⟨u, rfl, hu⟩ : ∃ u, l = a ++ c :: u ∧ u ++ '\n' :: t = old := by
      rw [List.append_cons a] at e
      rcases List.append_eq_append_iff.mp e with ⟨u, hu, hrest⟩ | ⟨u, rfl, hrest⟩
      · cases u with
        | nil => exact ⟨[], by rw [List.append_nil] at hu; exact hu.symm, hrest⟩
        | cons x u =>
          obtain ⟨rfl, -⟩ := List.cons.inj hrest
          exact absurd (hu ▸ List.mem_append_right l List.mem_cons_self) hnotin
      · exact ⟨u, by rw [List.append_assoc]; rfl, hrest.symm⟩
    obtain ⟨l', t', rfl, hline, hrest⟩ := ih (Text.oneLine_append.mp hl).2.tail hu
    exact ⟨a' ++ c :: l', t', by simp only [List.append_assoc, List.cons_append],
      .span line semicolon sign inLine hline, hrest⟩

/-- What stands in front of the first parenthesis of a line stays. -/
theorem front {a : Text} (h : Reworked false old (a ++ new)) (hline : '\n' ∉ a) (hparen : '(' ∉ a) :
    ∃ rest, old = a ++ rest ∧ Reworked false rest new := by
  induction a generalizing old with
  | nil => exact ⟨old, rfl, h⟩
  | cons c a ih =>
    generalize e : c :: a ++ new = text at h
    cases h with
    | done => cases e
    | @keep b d old text rest =>
      obtain ⟨rfl, rfl⟩ := List.cons.inj e
      have hstate : behindParen false c = false := by
        rw [behindParen, Bool.false_or, Bool.and_eq_false_iff]
        exact .inr (beq_false_of_ne fun k => hparen (List.mem_cons.mpr (.inl k.symm)))
      rw [hstate] at rest
      obtain ⟨behind, rfl, hbehind⟩ := ih rest (fun k => hline (List.mem_cons_of_mem c k))
        fun k => hparen (List.mem_cons_of_mem c k)
      exact ⟨behind, rfl, hbehind⟩

theorem blank (h : Reworked b old new) (hnew : new.all Text.isBlank = true) :
    old.all Text.isBlank = true := by
  induction h with
  | done => rfl
  | keep _ ih =>
    rw [List.all_cons, Bool.and_eq_true] at hnew ⊢
    exact ⟨hnew.1, ih hnew.2⟩
  | span _ _ sign =>
    rw [List.all_append, List.all_cons, sign, Bool.false_and, Bool.and_false] at hnew
    cases hnew

theorem closes (h : Reworked b old new) (hnew : PineTools.closes new = true) :
    PineTools.closes old = true := by
  induction h with
  | done => rfl
  | keep rest ih =>
    rw [PineTools.closes] at hnew ⊢
    split at hnew
    case isTrue hc =>
      rw [if_pos hc]
      exact rest.blank hnew
    case isFalse hc =>
      rw [if_neg hc]
      exact ih hnew
  | @span a a' old new c _ semicolon sign _ rest ih =>
    have hnone : ';' ∉ a' := fun k =>
      absurd (blank_of_closes k hnew c List.mem_cons_self) (by rw [sign]; exact Bool.false_ne_true)
    rw [closes_append hnone] at hnew
    rw [closes_append fun k => hnone (semicolon k)]
    rw [PineTools.closes] at hnew ⊢
    split at hnew
    case isTrue hc =>
      rw [if_pos hc]
      exact rest.blank hnew
    case isFalse hc =>
      rw [if_neg hc]
      exact ih hnew

theorem exportedVariable_line (h : Reworked false old new) (hold : Text.OneLine old)
    (hnew : (exportedVariable none new).isSome = true) :
    (exportedVariable none old).isSome = true := by
  have hline := h.oneLine hold
  obtain ⟨front, behind, v, rfl, hopening, hsign, hcloses⟩ :=
    (exportedVariable_isSome_iff hline).mp hnew
  obtain ⟨-, hparen⟩ := not_mem_exportOpening hopening
  rw [List.append_cons] at h
  obtain ⟨rest, rfl, hrest⟩ := h.front
    (fun k => hline ((List.append_cons front '=' behind) ▸ List.mem_append_left _ k))
    fun k => (List.mem_append.mp k).elim hparen (by decide)
  rw [← List.append_cons] at hold ⊢
  refine (exportedVariable_isSome_iff hold).mpr
    ⟨front, rest, v, rfl, hopening, ?_, hrest.closes hcloses⟩
  cases hrest with
  | done => exact hsign
  | keep => exact hsign

theorem exportedVariables {t t' : Text} (h : Reworked false (mask t) (mask t'))
    (ht : Repair.exportedVariables t = []) : Repair.exportedVariables t' = [] := by
  rw [Repair.exportedVariables_eq_nil_iff] at ht ⊢
  generalize mask t = old at h ht
  generalize mask t' = new at h ⊢
  induction old using Text.lines_induction generalizing new with
  | last l hl =>
    rw [Text.lines_of_oneLine hl, List.forall_mem_singleton] at ht
    rw [Text.lines_of_oneLine (h.oneLine hl), List.forall_mem_singleton, ← Bool.not_eq_true]
    exact fun hnew =>
      absurd (h.exportedVariable_line hl hnew) (by rw [ht]; exact Bool.false_ne_true)
  | more l m hl ih =>
    obtain ⟨l', m', rfl, hline, hrest⟩ := h.cut hl
    rw [Text.lines_append_newline hl, List.forall_mem_cons] at ht
    rw [Text.lines_append_newline (hline.oneLine hl), List.forall_mem_cons, ← Bool.not_eq_true]
    refine ⟨fun hnew => ?_, ih ht.2 m' hrest⟩
    exact absurd (hline.exportedVariable_line hl hnew) (by rw [ht.1]; exact Bool.false_ne_true)

end Reworked

/-- An edit that changes something behind a parenthesis of its line. -/
structure Edit.Inside (t : Text) (e : Edit) : Prop where
  paren : (t.take e.start).foldl behindParen false = true
  line : '\n' ∉ Text.slice t e.start e.stop ++ e.replacement
  semicolon : ';' ∈ Text.slice t e.start e.stop → ';' ∈ e.replacement
  sign : ∃ c rest, t.drop e.stop = c :: rest ∧ Text.isBlank c = false ∧ c ≠ '\n'

theorem behindParen_line {a : Text} (ha : '\n' ∉ a) : a.foldl behindParen true = true := by
  induction a with
  | nil => rfl
  | cons c a ih =>
    have hc : c ≠ '\n' := fun e => ha (List.mem_cons.mpr (.inl e.symm))
    rw [List.foldl_cons, behindParen, Bool.true_or, Bool.and_true, bne_iff_ne.mpr hc,
      ih fun k => ha (List.mem_cons_of_mem c k)]

theorem behindParen_of_paren {a x y : Text} (h : a = x ++ '(' :: y) (hy : '\n' ∉ y) (b : Bool) :
    a.foldl behindParen b = true := by
  have hopen : behindParen (x.foldl behindParen b) '(' = true := by
    rw [behindParen, beq_self_eq_true, Bool.or_true]
    rfl
  rw [h, List.foldl_append, List.foldl_cons, hopen, behindParen_line hy]

/-- Edits behind parentheses rework a text. -/
theorem reworked_splice {t : Text} {offset : Nat} {es : List Edit}
    (ho : Edit.Ordered t.length offset es) (hes : ∀ e ∈ es, e.Inside t) :
    Reworked ((t.take offset).foldl behindParen false) (t.drop offset)
      (Edit.splice t offset es) := by
  induction es generalizing offset with
  | nil => exact .refl _ _
  | cons e es ih =>
    obtain ⟨hstart, hstop, -, hrest⟩ := ho
    obtain ⟨he, hes⟩ := List.forall_mem_cons.mp hes
    obtain ⟨c, rest, hdrop, hsign, hc⟩ := he.sign
    have hfront : t.drop offset = Text.slice t offset e.start ++
        (Text.slice t e.start e.stop ++ c :: rest) := by
      rw [← hdrop, Edit.slice_append_drop t hstop, Edit.slice_append_drop t hstart]
    have htail : t.drop (e.stop + 1) = rest := by
      rw [← List.drop_drop, hdrop]
      rfl
    have hbehind : Edit.splice t e.stop es = c :: Edit.splice t (e.stop + 1) es :=
      Edit.splice_cons hdrop fun d hd => hrest.start_le d (List.mem_of_head? hd)
    have hbefore : ((t.take offset) ++ Text.slice t offset e.start).foldl behindParen false =
        true := by
      rw [Edit.take_append_slice t hstart]
      exact he.paren
    -- The parenthesis is still on the line where the text goes on as it was.
    have hpassed : (t.take (e.stop + 1)).foldl behindParen false = true := by
      have htake : t.take (e.stop + 1) =
          t.take e.start ++ (Text.slice t e.start e.stop ++ [c]) := by
        rw [List.take_add_one, ← Edit.take_append_slice t hstop, List.append_assoc,
          ← List.head?_drop, hdrop]
        rfl
      rw [htake, List.foldl_append, he.paren]
      refine behindParen_line fun k => (List.mem_append.mp k).elim
        (fun k => he.line (List.mem_append_left _ k)) fun k => hc (List.mem_singleton.mp k).symm
    have hlater := ih hrest hes
    rw [hpassed, htail] at hlater
    rw [hfront, Edit.splice, hbehind, List.append_assoc]
    refine .keeps _ ?_
    rw [← List.foldl_append, hbefore]
    exact .span he.line he.semicolon hsign hc hlater

theorem Edit.Ordered.masked {n offset : Nat} {es : List Edit} (h : Edit.Ordered n offset es) :
    Edit.Ordered n offset (es.map Edit.masked) := by
  induction es generalizing offset with
  | nil => trivial
  | cons e es ih => exact ⟨h.1, h.2.1, h.2.2.1, ih h.2.2.2⟩

theorem oneLine_mask {t : Text} (h : Text.OneLine t) : Text.OneLine (mask t) := fun k => by
  obtain ⟨c, hc, hn⟩ := List.mem_map.mp k
  refine h ?_
  rw [← cellsFrom_chars .start t, ← char_of_newline hn]
  exact List.mem_map_of_mem hc

namespace Repair

theorem inside_inputEdit {t : Text} {m : Match Cell (InputWithoutComma Cell)}
    (hm : m ∈ commalessInputs t) : (inputEdit m).masked.Inside (mask t) := by
  obtain ⟨a, rest, hcells, hstart, happ⟩ :=
    Pattern.applies_of_mem_findAll advances_inputWithoutComma hm
  obtain ⟨e, -, -, hblank, y, ys, q, htitle, hy⟩ := inputWithoutComma_eq_some happ
  obtain ⟨call, paren, inner, hbefore, hparen, hline⟩ := inputWithoutComma_paren happ
  have hsplit : mask t = (seenText (a ++ call) ++ '(' :: seenText (inner ++ m.value.number)) ++
      (seenText m.value.gap ++ q.char :: seenText (ys ++ rest)) := by
    rw [mask, hcells, e, hbefore, htitle, ← hparen, ← hy]
    simp only [seenText, List.map_append, List.map_cons, List.append_assoc, List.cons_append]
    rfl
  have hlength : (seenText (a ++ call) ++ '(' :: seenText (inner ++ m.value.number)).length =
      (inputEdit m).start := by
    simp only [inputEdit, hstart, hbefore, seenText, List.length_append, List.length_cons,
      List.length_map]
    omega
  have hstop : (inputEdit m).stop = (inputEdit m).start + (seenText m.value.gap).length := by
    rw [seenText, List.length_map]
    rfl
  have hbehind : (mask t).drop (inputEdit m).start =
      seenText m.value.gap ++ q.char :: seenText (ys ++ rest) := by
    rw [hsplit, List.drop_left' hlength]
  have hslice : Text.slice (mask t) (inputEdit m).start (inputEdit m).stop =
      seenText m.value.gap := by
    rw [Text.slice, List.drop_take, hbehind, hstop, Nat.add_sub_cancel_left, List.take_left' rfl]
  have hdrop : (mask t).drop (inputEdit m).stop = q.char :: seenText (ys ++ rest) := by
    rw [hstop, ← List.drop_drop, hbehind, List.drop_left' rfl]
  have hgap {c : Char} (hc : Text.isBlank c = false) : c ∉ seenText m.value.gap := fun k => by
    obtain ⟨g, hg, rfl⟩ := List.mem_map.mp k
    exact Bool.noConfusion (hc.symm.trans (hblank g hg))
  refine ⟨?_, ?_, ?_, ?_⟩
  · refine behindParen_of_paren (x := seenText (a ++ call))
      (y := seenText (inner ++ m.value.number)) ?_ (fun k => ?_) false
    · change (mask t).take (inputEdit m).start = _
      rw [hsplit, List.take_left' hlength]
    · obtain ⟨g, hg, hn⟩ := List.mem_map.mp k
      exact hline g hg hn
  · change '\n' ∉ Text.slice (mask t) (inputEdit m).start (inputEdit m).stop ++ mask separator
    rw [hslice]
    exact fun k => (List.mem_append.mp k).elim (hgap (by decide)) (by decide)
  · change ';' ∈ Text.slice (mask t) (inputEdit m).start (inputEdit m).stop → _
    rw [hslice]
    exact fun k => absurd k (hgap (by decide))
  · refine ⟨q.char, _, hdrop, ?_, ?_⟩ <;> cases q <;> decide

theorem inside_callEdit {t : Text} {call : MissingCommas} (h : call ∈ missingCommas t) :
    (callEdit t call).masked.Inside (mask t) := by
  obtain ⟨a, args, rest, x, y, hargs⟩ := callArguments_of_mem h
  have hargsMask : mask (writtenText args) = args.map Cell.masked :=
    congrArg (List.map Cell.masked) hargs.cells_args
  have hone : Text.OneLine (insertCommas (writtenText args) (mask (writtenText args))) :=
    oneLine_strip (oneLine_fillGaps hargs.oneLine)
  have hfilter := @filter_insertCommas (· == ';')
    (fun c hc => beq_false_of_ne (ne_of_white hc (by decide))) (by decide) _ hargs.oneLine
    hargs.inCode_args
  rw [callEdit_eq h, argsOf, hargs.slice]
  refine ⟨?_, ?_, fun k => ?_, ?_⟩
  · refine behindParen_of_paren (x := a.map Cell.masked) (y := []) ?_ List.not_mem_nil false
    change (mask t).take call.argsStart = _
    rw [hargs.start, mask, hargs.cells_split, List.map_append, List.take_left' (by simp)]
    simp [hargs.opens]
  · change '\n' ∉ Text.slice (mask t) call.argsStart call.argsStop ++
      mask (insertCommas (writtenText args) (mask (writtenText args)))
    rw [hargs.slice_mask]
    refine fun k => (List.mem_append.mp k).elim (fun k => ?_) fun k => ?_
    · obtain ⟨g, hg, e⟩ := List.mem_map.mp k
      exact hargs.line g hg e
    · exact oneLine_mask hone k
  · change ';' ∈ Text.slice (mask t) call.argsStart call.argsStop at k
    change ';' ∈ mask (insertCommas (writtenText args) (mask (writtenText args)))
    rw [hargs.slice_mask, ← hargsMask] at k
    have hmem : ';' ∈ (mask (writtenText args)).filter fun c => c == ';' :=
      List.mem_filter.mpr ⟨k, beq_self_eq_true ';'⟩
    rw [← hfilter] at hmem
    exact (List.mem_filter.mp hmem).1
  · refine ⟨')', rest.map Cell.masked, ?_, by decide, by decide⟩
    change (mask t).drop call.argsStop = _
    rw [hargs.stop_eq, mask, hargs.cells_close, List.map_append, List.drop_left' (by simp)]
    simp [hargs.closes]

/-- Edits behind parentheses make no exported variable. -/
theorem exportedVariables_splice {t : Text} {es : List Edit} (ho : Edit.Ordered t.length 0 es)
    (hs : ∀ e ∈ es, Edit.Sound t e) (hes : ∀ e ∈ es, e.masked.Inside (mask t))
    (ht : exportedVariables t = []) : exportedVariables (Edit.splice t 0 es) = [] := by
  have hordered : Edit.Ordered (mask t).length 0 (es.map Edit.masked) := by
    rw [mask_length]
    exact ho.masked
  refine Reworked.exportedVariables (t := t) ?_ ht
  have hspliced : mask (Edit.splice t 0 es) = Edit.splice (mask t) 0 (es.map Edit.masked) :=
    Edit.mask_splice ho hs
  rw [hspliced]
  exact reworked_splice hordered (List.forall_mem_map.mpr hes)

theorem exportedVariables_insertMissingCommas {t : Text} (ht : exportedVariables t = []) :
    exportedVariables (insertMissingCommas t).text = [] := by
  have hinputs : exportedVariables (separateInputs t).text = [] := by
    rw [separateInputs_text]
    exact exportedVariables_splice (ordered_inputEdits t)
      (List.forall_mem_map.mpr fun m hm => (sound_inputEdit hm).1)
      (List.forall_mem_map.mpr fun m hm => inside_inputEdit hm) ht
  rw [insertMissingCommas, separateArguments_text]
  exact exportedVariables_splice (ordered_callEdits _)
    (List.forall_mem_map.mpr fun call hcall => sound_callEdit hcall)
    (List.forall_mem_map.mpr fun call hcall => inside_callEdit hcall) hinputs

end Repair

section Renames

variable {f : Text → Text}

theorem mem_mapCalls_of_mem {t : Text} {c : Char} (hc : inName c = false) (h : c ∈ t) :
    c ∈ mapCalls f t := by
  suffices ∀ read, c ∈ mapCallsFrom f read t from this []
  induction t with
  | nil => exact absurd h List.not_mem_nil
  | cons x t ih =>
    intro read
    rw [mapCallsFrom]
    rcases List.mem_cons.mp h with rfl | h
    · rw [hc, if_neg Bool.false_ne_true]
      exact List.mem_append_right _ List.mem_cons_self
    · split
      · exact ih h _
      · exact List.mem_append_right _ (List.mem_cons_of_mem x (ih h []))

/-- Where no call opens in the new spelling none opened in the old one, and nothing was spelled
anew. -/
theorem mapCalls_eq_self {t : Text} (h : '(' ∉ mapCalls f t) : mapCalls f t = t :=
  mapCalls_closed fun c hc k => h (mem_mapCalls_of_mem (by decide) ((show c = '(' from k) ▸ hc))

variable (hf : Spelling f)
include hf

/-- The text is cut where its new spelling is cut at the first sign that divides. -/
theorem mapCalls_split {d : Char} (hd : Divides d) {t x y : Text} (hx : d ∉ x)
    (h : mapCalls f t = x ++ d :: y) :
    ∃ a b, t = a ++ d :: b ∧ d ∉ a ∧ mapCalls f a = x ∧ mapCalls f b = y := by
  have hold {u : Text} (hu : d ∈ mapCalls f u) : d ∈ u :=
    (mem_mapCalls hf hu).resolve_right fun k => Bool.noConfusion (hd.1.symm.trans k)
  obtain ⟨a, b, rfl, ha⟩ :=
    List.eq_append_cons_of_mem (hold (h ▸ List.mem_append_right x List.mem_cons_self))
  rw [mapCalls_append_divider hd] at h
  have hnone : d ∉ mapCalls f a := fun k => ha (hold k)
  rcases List.append_eq_append_iff.mp h with ⟨u, rfl, hu⟩ | ⟨u, hu, hrest⟩
  · cases u with
    | nil => exact ⟨a, b, rfl, ha, (List.append_nil _).symm, (List.cons.inj hu).2⟩
    | cons c u =>
      obtain ⟨rfl, -⟩ := List.cons.inj hu
      exact absurd (List.mem_append_right _ List.mem_cons_self) hx
  · cases u with
    | nil => exact ⟨a, b, rfl, ha, hu.trans (List.append_nil x), (List.cons.inj hrest).2.symm⟩
    | cons c u =>
      obtain ⟨rfl, -⟩ := List.cons.inj hrest
      exact absurd (hu ▸ List.mem_append_right x List.mem_cons_self) hnone

theorem closes_of_mapCalls {t : Text} (h : closes (mapCalls f t) = true) : closes t = true := by
  have hdivides : Divides ';' := by
    rw [Divides]
    decide
  obtain ⟨body, closing, e, hbody, rfl | ⟨w, rfl, hw⟩⟩ := closes_iff.mp h
  · have hnone : ';' ∉ t := fun k => hbody (by
      rw [List.append_nil] at e
      exact e ▸ mem_mapCalls_of_mem (by decide) k)
    exact closes_iff.mpr ⟨t, [], (List.append_nil t).symm, hnone, .inl rfl⟩
  · obtain ⟨a, b, rfl, ha, -, rfl⟩ := mapCalls_split hf hdivides hbody e
    have hsame : mapCalls f b = b :=
      mapCalls_eq_self fun k => absurd (hw _ k) (by decide)
    rw [hsame] at hw
    exact closes_iff.mpr ⟨a, ';' :: b, rfl, ha, .inr ⟨b, rfl, hw⟩⟩

/-- What stands in front of the sign of an exported variable calls nothing, so a move of calls
makes no exported variable. -/
theorem exportedVariable_of_mapCalls {l : Text} (hl : Text.OneLine l)
    (h : (exportedVariable none (mapCalls f l)).isSome = true) :
    (exportedVariable none l).isSome = true := by
  have hdivides : Divides '=' := by
    rw [Divides]
    decide
  have hline : Text.OneLine (mapCalls f l) := fun k =>
    (mem_mapCalls hf k).elim hl (by decide)
  obtain ⟨front, behind, v, e, hopening, hsign, hcloses⟩ :=
    (exportedVariable_isSome_iff hline).mp h
  obtain ⟨hequals, hparen⟩ := not_mem_exportOpening hopening
  obtain ⟨a, b, rfl, -, rfl, rfl⟩ := mapCalls_split hf hdivides hequals e
  rw [mapCalls_eq_self hparen] at hopening
  refine (exportedVariable_isSome_iff hl).mpr
    ⟨a, b, v, rfl, hopening, fun k => hsign ?_, closes_of_mapCalls hf hcloses⟩
  obtain ⟨b, rfl⟩ := List.head?_eq_some_iff.mp k
  have := mapCalls_append_divider (f := f) hdivides [] b
  rw [List.nil_append] at this
  rw [this, mapCalls, mapCallsFrom]
  rfl

end Renames

namespace Repair

theorem keptByRenames_exports : KeptByRenames fun t => exportedVariables t = [] := by
  intro name new t hname hnew ht
  rw [exportedVariables_eq_nil_iff] at ht ⊢
  have hf := spelling_renamed_text hname hnew
  rw [mask_renameCalls hname hnew, lines_mapCalls hf]
  refine List.forall_mem_map.mpr fun l hl => Bool.eq_false_iff.mpr fun hnew => ?_
  have := exportedVariable_of_mapCalls hf (Text.oneLine_of_mem_lines hl) hnew
  rw [ht l hl] at this
  cases this

end Repair

end PineTools
