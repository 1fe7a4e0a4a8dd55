import PineTools.Proofs.Construct.Definitions

/-! The first word of a line. A construct with a keyword is met only where its keyword is the first
word of the line, so a line is read as one of them at most, and a line with another first word is
read as none. -/
namespace PineTools

open Reader

def firstWord (code : Text) : Text := (code.dropWhile Text.isBlank).takeWhile Text.isWord

theorem not_word_of_blank {c : Char} (h : Text.isBlank c = true) : Text.isWord c = false := by
  rw [Text.isBlank, Bool.or_eq_true, beq_iff_eq, beq_iff_eq] at h
  rcases h with rfl | rfl <;> decide

theorem not_blank_of_word {c : Char} (h : Text.isWord c = true) : Text.isBlank c = false :=
  Bool.eq_false_iff.mpr fun k => Bool.noConfusion (h.symm.trans (not_word_of_blank k))

section Words

variable {indent w rest : Text} {c : Char}

theorem firstWord_append (hindent : ∀ c ∈ indent, Text.isBlank c = true)
    (hw : ∀ c ∈ w, Text.isWord c = true) (hne : w ≠ []) (hrest : ∀ c, rest.head? = some c →
      Text.isWord c = false) : firstWord (indent ++ (w ++ rest)) = w := by
  have hfirst : (w ++ rest).dropWhile Text.isBlank = w ++ rest := by
    cases w with
    | nil => exact absurd rfl hne
    | cons d w =>
      exact List.dropWhile_cons_of_neg
        (Bool.eq_false_iff.mp (not_blank_of_word (hw d List.mem_cons_self)))
  have hstop : rest.takeWhile Text.isWord = [] := by
    cases rest with
    | nil => rfl
    | cons d rest => exact List.takeWhile_cons_of_neg (Bool.eq_false_iff.mp (hrest d rfl))
  rw [firstWord, List.dropWhile_append_of_pos hindent, hfirst, List.takeWhile_append_of_pos hw,
    hstop, List.append_nil]

theorem firstWord_cons (hindent : ∀ c ∈ indent, Text.isBlank c = true)
    (hw : ∀ c ∈ w, Text.isWord c = true) (hne : w ≠ []) (hc : Text.isWord c = false) :
    firstWord (indent ++ (w ++ c :: rest)) = w :=
  firstWord_append hindent hw hne fun _ e => Option.some.inj e ▸ hc

end Words

variable {α : Type} [Glyph α] {gs indent gap keyword b rest : List α} {x y : α}

theorem seen_blanks (hindent : ∀ g ∈ indent, Text.isBlank (Glyph.seen g) = true) :
    ∀ c ∈ seenText indent, Text.isBlank c = true :=
  List.forall_mem_map.mpr hindent

section Keywords

theorem firstWord_keyword {w : Text} (hindent : ∀ g ∈ indent, Text.isBlank (Glyph.seen g) = true)
    (hseen : seenText keyword = w) (hw : (∀ c ∈ w, Text.isWord c = true) ∧ w ≠ [])
    (hy : Text.isWord (Glyph.seen y) = false) :
    firstWord (seenText (indent ++ (keyword ++ y :: b))) = w := by
  rw [seenText, List.map_append, List.map_append, ← seenText, ← seenText, hseen]
  exact firstWord_cons (seen_blanks hindent) hw.1 hw.2 hy

theorem leadingKeyword_firstWord {w : String} (hw : (∀ c ∈ w.toList, Text.isWord c = true) ∧
    w.toList ≠ []) {k : LeadingKeyword α} (h : leadingKeyword w none gs = some (k, rest)) :
      firstWord (seenText gs) = w.toList := by
  obtain ⟨rfl, hindent, hseen, y, gs', rfl, hy⟩ := leadingKeyword_eq_some h
  exact firstWord_keyword hindent hseen hw (not_word_of_blank hy)

theorem variableDeclaration_firstWord {d : VariableDeclaration α}
    (h : variableDeclaration none gs = some (d, rest)) :
    firstWord (seenText gs) = "var".toList := by
  obtain ⟨gap, x, more, rfl, hindent, hseen, hne, hgap, -⟩ := variableDeclaration_eq_some h
  cases gap with
  | nil => exact absurd rfl hne
  | cons y gap =>
    exact firstWord_keyword hindent hseen (by decide)
      (not_word_of_blank (hgap y List.mem_cons_self))

theorem importStatement_eq_some {u : Unit} (h : importStatement none gs = some (u, rest)) :
    ∃ indent keyword y b, gs = indent ++ (keyword ++ y :: b) ∧
    (∀ g ∈ indent, Text.isBlank (Glyph.seen g) = true) ∧
      seenText keyword = "import".toList ∧ Text.isBlank (Glyph.seen y) = true := by
  obtain ⟨indent, rest₁, hindent, h⟩ := discard_bind_eq_some.mp h
  obtain ⟨keyword, rest₂, hkeyword, h⟩ := discard_bind_eq_some.mp h
  obtain ⟨gap, rest₃, hgap, -⟩ := discard_bind_eq_some.mp h
  obtain ⟨rfl, isIndent⟩ := blanks_eq_some hindent
  obtain ⟨rfl, hseen⟩ := exactly_eq_some.mp hkeyword
  obtain ⟨y, b, rfl, hy⟩ := head_of_run1 hgap
  exact ⟨indent, keyword, y, b, rfl, isIndent, hseen, hy⟩

theorem importStatement_firstWord {u : Unit} (h : importStatement none gs = some (u, rest)) :
    firstWord (seenText gs) = "import".toList := by
  obtain ⟨indent, keyword, y, b, rfl, hindent, hseen, hy⟩ := importStatement_eq_some h
  exact firstWord_keyword hindent hseen (by decide) (not_word_of_blank hy)

theorem functionDefinition_firstWord {d : FunctionDefinition α}
    (h : functionDefinition none gs = some (d, rest)) (hmethod : d.method ≠ none) :
    firstWord (seenText gs) = "method".toList := by
  obtain ⟨body, typed, rfl, hindent, hmark, -⟩ := functionDefinition_eq_some h
  obtain ⟨m, hm⟩ := Option.ne_none_iff_exists'.mp hmethod
  obtain ⟨-, keyword, gap, rfl, hseen, hne, hgap⟩ := methodMark_eq_some (hmark m hm)
  rw [hm, Option.getD_some, List.append_assoc]
  cases gap with
  | nil => exact absurd rfl hne
  | cons y gap =>
    exact firstWord_keyword hindent hseen (by decide)
      (not_word_of_blank (hgap y List.mem_cons_self))

theorem exportHead_eq_some {v : List α} (h : exportHead none gs = some (v, rest)) :
    ∃ indent keyword y gap x b, blanks gs = some (indent, keyword ++ (y :: gap ++ x :: b)) ∧
      seenText keyword = "export".toList ∧ (∀ g ∈ y :: gap, Text.isBlank (Glyph.seen g) = true) ∧
      Text.isWord (Glyph.seen x) = true := by
  have hkinds : ∀ w ∈ exportKinds, w.toList.head?.any Text.isWord = true := by decide
  obtain ⟨head, rest₀, hhead, h⟩ := bind_eq_some.mp h
  obtain ⟨indent, rest₁, tail, hindent, htail, rfl⟩ := inTurn_cons_eq_some.mp hhead
  obtain ⟨keyword, rest₂, gap, hkeyword, hgap, rfl⟩ := inTurn_cons_eq_some.mp htail
  have hgap := inTurn_singleton_eq_some.mp hgap
  obtain ⟨kind, rest₃, hkind, -⟩ := bind_eq_some.mp h
  obtain ⟨r, hr, hkind⟩ := firstOf_eq_some hkind
  obtain ⟨w, hw, rfl⟩ := List.mem_map.mp hr
  obtain ⟨v', rest₄, hword, -⟩ := bind_eq_some.mp hkind
  obtain ⟨rfl, hseen⟩ := exactly_eq_some.mp hword
  obtain ⟨rfl, hexport⟩ := exactly_eq_some.mp hkeyword
  have hne := (run1_eq_some.mp hgap).1
  obtain ⟨rfl, isGap⟩ := takes_run1 _ hgap
  cases gap with
  | nil => exact absurd rfl hne
  | cons y gap =>
    have hhead := hkinds w hw
    rw [← hseen] at hhead
    cases v' with
    | nil => cases hhead
    | cons x v' => exact ⟨indent, keyword, y, gap, x, v' ++ rest₄, hindent, hexport, isGap, hhead⟩

theorem exportHead_firstWord {v : List α} (h : exportHead none gs = some (v, rest)) :
    firstWord (seenText gs) = "export".toList := by
  obtain ⟨indent, keyword, y, gap, x, b, hblanks, hseen, hgap, -⟩ := exportHead_eq_some h
  obtain ⟨rfl, hindent⟩ := blanks_eq_some hblanks
  exact firstWord_keyword hindent hseen (by decide) (not_word_of_blank (hgap y List.mem_cons_self))

theorem declaration_eq_some {call : DeclarationCall} (h : declaration none gs = some (call, rest)) :
    ∃ keyword gap y, gs = keyword ++ (gap ++ y :: rest) ∧ seenText keyword = call.name.toList ∧
      (∀ g ∈ gap, Text.isBlank (Glyph.seen g) = true) ∧ Glyph.seen y = '(' := by
  obtain ⟨r, hr, h⟩ := firstOf_eq_some h
  obtain ⟨call', -, rfl⟩ := List.mem_map.mp hr
  obtain ⟨keyword, rest₁, hkeyword, h⟩ := discard_bind_eq_some.mp h
  obtain ⟨gap, rest₂, hgap, h⟩ := discard_bind_eq_some.mp h
  obtain ⟨y, rest₃, hy, h⟩ := discard_bind_eq_some.mp h
  cases pure_eq_some.mp h
  obtain ⟨rfl, hseen⟩ := exactly_eq_some.mp hkeyword
  obtain ⟨rfl, isGap⟩ := blanks_eq_some hgap
  obtain ⟨rfl, hparen⟩ := one_eq_some.mp hy
  exact ⟨keyword, gap, y, rfl, hseen, isGap, beq_iff_eq.mp hparen⟩

theorem declaration_firstWord {call : DeclarationCall}
    (h : declaration none gs = some (call, rest)) :
    firstWord (seenText gs) = call.name.toList := by
  have hname : (∀ c ∈ call.name.toList, Text.isWord c = true) ∧ call.name.toList ≠ [] := by
    cases call <;> decide
  obtain ⟨keyword, gap, y, rfl, hseen, hgap, hy⟩ := declaration_eq_some h
  have hparen : Text.isWord (Glyph.seen y) = false := by
    rw [hy]
    decide
  have hrest : ∀ c, (seenText (gap ++ y :: rest)).head? = some c → Text.isWord c = false := by
    intro c hc
    cases gap with
    | nil => exact Option.some.inj hc ▸ hparen
    | cons g gap => exact Option.some.inj hc ▸ not_word_of_blank (hgap g List.mem_cons_self)
  rw [seenText, List.map_append, ← seenText, hseen]
  exact @firstWord_append [] _ _ (fun _ hc => absurd hc List.not_mem_nil) hname.1 hname.2 hrest

end Keywords

section Undefining

/-- A word that begins no definition when another word follows it: neither the mark of methods nor a
type. -/
structure Undefining (w : Text) : Prop where
  word : ∀ c ∈ w, Text.isWord c = true
  ne_nil : w ≠ []
  no_mark : w.head? ≠ some 'm'
  no_type : ∀ u ∈ typeQualifiers ++ plainTypes ++ genericTypes, u.toList ≠ w

theorem undefining_let : Undefining "let".toList := ⟨by decide, by decide, by decide, by decide⟩

theorem undefining_var : Undefining "var".toList := ⟨by decide, by decide, by decide, by decide⟩

theorem undefining_export :
    Undefining "export".toList := ⟨by decide, by decide, by decide, by decide⟩

variable {w : Text} (hseen : seenText keyword = w)
include hseen

theorem run_word (hw : ∀ c ∈ w, Text.isWord c = true) (hy : Text.isWord (Glyph.seen y) = false) :
    run Text.isWord (keyword ++ y :: b) = some (keyword, y :: b) :=
  run_append (fun _ hg => hw _ (hseen ▸ List.mem_map_of_mem hg)) fun _ e => Option.some.inj e ▸ hy

theorem showsOneOf_other {words : List String} (hw : ∀ u ∈ words, u.toList ≠ w) :
    showsOneOf keyword words = false := by
  rw [showsOneOf, List.any_eq_false]
  intro u hu h
  exact hw u hu ((beq_iff_eq.mp h).symm.trans hseen)

theorem methodMark_of_other (hne : w ≠ []) (hw : w.head? ≠ some 'm') :
    methodMark (keyword ++ rest) = none := by
  refine Option.eq_none_iff_forall_ne_some.mpr fun ⟨m, rest'⟩ h => hw ?_
  obtain ⟨e, mark, more, rfl, hmark, -⟩ := methodMark_eq_some h
  have hhead : (seenText (keyword ++ rest)).head? = some 'm' := by
    rw [e, seenText, List.append_assoc, List.map_append, ← seenText, hmark]
    rfl
  rw [seenText, List.map_append, ← seenText, hseen] at hhead
  cases w with
  | nil => exact absurd rfl hne
  | cons c w => exact hhead

theorem leadingType_of_other (hw : Undefining w) (hy : Text.isWord (Glyph.seen y) = false) :
    leadingType (keyword ++ y :: b) = none := by
  have hno (words : List String) (h : words ⊆ typeQualifiers ++ plainTypes ++ genericTypes) :
      showsOneOf keyword words = false :=
    showsOneOf_other hseen fun u hu => hw.no_type u (h hu)
  have hrun {first rest} (h : run1 Text.isWord (keyword ++ y :: b) = some (first, rest)) :
      first = keyword :=
    (Prod.mk.inj (Option.some.inj ((run1_eq_some.mp h).2.symm.trans (run_word hseen hw.word hy)))).1
  refine Option.eq_none_iff_forall_ne_some.mpr fun ⟨type, rest⟩ h => ?_
  obtain ⟨type, rest₁, htype, -⟩ := bind_eq_some.mp h
  rcases orElse_eq_some.mp htype with htype | ⟨-, htype⟩
  · obtain ⟨qualifier, rest₂, hqualifier, -⟩ := bind_eq_some.mp htype
    obtain ⟨first, rest₃, hfirst, hqualifier⟩ := bind_eq_some.mp hqualifier
    obtain ⟨_, _, hguard, -⟩ := bind_eq_some.mp hqualifier
    rw [hrun hfirst, hno typeQualifiers (by decide)] at hguard
    exact Bool.noConfusion (guard_eq_some.mp hguard).1
  · obtain ⟨first, rest₃, hfirst, h⟩ := bind_eq_some.mp htype
    rw [hrun hfirst, hno plainTypes (by decide), hno genericTypes (by decide)] at h
    cases h

theorem definitionFromName_of_word (hw : ∀ c ∈ w, Text.isWord c = true) (hne : w ≠ [])
    (hgap : ∀ g ∈ y :: gap, Text.isBlank (Glyph.seen g) = true)
    (hx : Text.isWord (Glyph.seen x) = true) :
    definitionFromName (keyword ++ (y :: gap ++ x :: b)) = none := by
  refine Option.eq_none_iff_forall_ne_some.mpr fun ⟨v, rest⟩ h => ?_
  obtain ⟨_, rest₁, hcontrol, h⟩ := bind_eq_some.mp h
  obtain ⟨-, e⟩ := notAhead_eq_some.mp hcontrol
  cases e
  obtain ⟨name, rest₂, hname, h⟩ := bind_eq_some.mp h
  obtain ⟨_, rest₃, hblanks, h⟩ := discard_bind_eq_some.mp h
  obtain ⟨_, rest₄, hopen, -⟩ := discard_bind_eq_some.mp h
  -- The name is the whole word, and the blanks behind it end before the other word.
  have hrest : rest₂ = y :: gap ++ x :: b := by
    obtain ⟨first, rest₅, hfirst, hname⟩ := bind_eq_some.mp hname
    obtain ⟨more, rest₆, hmore, hname⟩ := bind_eq_some.mp hname
    cases pure_eq_some.mp hname
    obtain ⟨e, -⟩ := one_eq_some.mp hfirst
    cases keyword with
    | nil => exact absurd hseen.symm hne
    | cons g keyword =>
      obtain ⟨-, rfl⟩ := List.cons.inj e
      have hrun : run Text.isWord (keyword ++ (y :: gap ++ x :: b)) =
          some (keyword, y :: gap ++ x :: b) := by
        refine run_append (fun g' hg' => hw _ ?_) fun _ e => Option.some.inj e ▸ not_word_of_blank
          (hgap y List.mem_cons_self)
        exact hseen ▸ List.mem_map_of_mem (List.mem_cons_of_mem g hg')
      exact (Prod.mk.inj (Option.some.inj (hmore.symm.trans hrun))).2
  have hskip : blanks (y :: gap ++ x :: b) = some (y :: gap, x :: b) :=
    run_append hgap fun _ e => Option.some.inj e ▸ not_blank_of_word hx
  rw [hrest] at hblanks
  cases hskip.symm.trans hblanks
  obtain ⟨e, hparen⟩ := one_eq_some.mp hopen
  obtain ⟨rfl, -⟩ := List.cons.inj e
  rw [beq_iff_eq.mp hparen] at hx
  exact absurd hx (by decide)

theorem plainDefinition_of_word (hw : Undefining w)
    (hgap : ∀ g ∈ y :: gap, Text.isBlank (Glyph.seen g) = true)
    (hx : Text.isWord (Glyph.seen x) = true) (method : Option (List α)) (typed : Bool) :
    plainDefinition indent method typed (keyword ++ (y :: gap ++ x :: b)) = none := by
  have hy : Text.isWord (Glyph.seen y) = false := not_word_of_blank (hgap y List.mem_cons_self)
  have htype : leadingType (keyword ++ (y :: gap ++ x :: b)) = none :=
    leadingType_of_other hseen hw hy
  have hname := definitionFromName_of_word (b := b) hseen hw.word hw.ne_nil hgap hx
  refine Option.eq_none_iff_forall_ne_some.mpr fun ⟨v, rest⟩ h => ?_
  cases typed with
  | true =>
    obtain ⟨_, _, e, -⟩ := bind_eq_some.mp h
    rw [htype] at e
    cases e
  | false =>
    obtain ⟨_, _, e, -⟩ := bind_eq_some.mp h
    rw [hname] at e
    cases e

/-- A line that begins with such a word and another one defines no function. -/
theorem functionDefinition_of_word (hw : Undefining w)
    (hindent : ∀ g ∈ indent, Text.isBlank (Glyph.seen g) = true)
    (hgap : ∀ g ∈ y :: gap, Text.isBlank (Glyph.seen g) = true)
    (hx : Text.isWord (Glyph.seen x) = true) :
    functionDefinition none (indent ++ (keyword ++ (y :: gap ++ x :: b))) = none := by
  have hblanks : blanks (indent ++ (keyword ++ (y :: gap ++ x :: b))) =
      some (indent, keyword ++ (y :: gap ++ x :: b)) := by
    refine run_append hindent fun _ e => not_blank_of_word (hw.word _ ?_)
    cases keyword with
    | nil => exact absurd hseen.symm hw.ne_nil
    | cons k keyword => exact Option.some.inj e ▸ hseen ▸ List.mem_cons_self
  have hmark : methodMark (keyword ++ (y :: gap ++ x :: b)) = none :=
    methodMark_of_other hseen hw.ne_nil hw.no_mark
  have hmarked (f : List α → Reader α (FunctionDefinition α)) :
      (methodMark >>= f) (keyword ++ (y :: gap ++ x :: b)) = none :=
    Option.eq_none_iff_forall_ne_some.mpr fun _ e => by
      obtain ⟨_, _, e, -⟩ := bind_eq_some.mp e
      rw [hmark] at e
      cases e
  have hplain := @plainDefinition_of_word _ _ indent gap keyword b x y w hseen hw hgap hx
  rw [functionDefinition_none_eq]
  refine Option.eq_none_iff_forall_ne_some.mpr fun ⟨v, rest⟩ h => ?_
  obtain ⟨indent', rest₁, hindent', h⟩ := bind_eq_some.mp h
  cases hblanks.symm.trans hindent'
  have hnone :=
    firstOf_eq_none.mpr (show ∀ r ∈ [methodMark >>= fun m => plainDefinition indent (some m) true,
      methodMark >>= fun m => plainDefinition indent (some m) false,
      plainDefinition indent none true, plainDefinition indent none false],
      r (keyword ++ (y :: gap ++ x :: b)) = none from ?_)
  · rw [hnone] at h
    cases h
  · simp only [List.forall_mem_cons]
    exact ⟨hmarked _, hmarked _, hplain none true, hplain none false, List.forall_mem_nil _⟩

end Undefining

theorem functionDefinition_of_variable {d : VariableDeclaration α}
    (h : variableDeclaration none gs = some (d, rest)) :
    functionDefinition none gs = none := by
  obtain ⟨gap, x, more, rfl, hindent, hseen, hne, hgap, hx⟩ := variableDeclaration_eq_some h
  cases gap with
  | nil => exact absurd rfl hne
  | cons y gap => exact functionDefinition_of_word hseen undefining_var hindent hgap hx

section Readings

variable {α β : Type} {p : Pattern α β} {gs : List α}

theorem readAt?_of_some {v : β} {rest : List α} (h : p none gs = some (v, rest)) :
    p.readAt? gs = some v := by
  rw [Pattern.readAt?, h]
  rfl

theorem readAt?_of_none (h : p none gs = none) : p.readAt? gs = none := by
  rw [Pattern.readAt?, h]
  rfl

theorem readAt?_eq_some {v : β} (h : p.readAt? gs = some v) :
    ∃ rest, p none gs = some (v, rest) := by
  obtain ⟨⟨v', rest⟩, hread, rfl⟩ := Option.map_eq_some_iff.mp h
  exact ⟨rest, hread⟩

end Readings

section FirstWords

variable {code : Text}

theorem firstWord_of_variable {d : VariableDeclaration Char}
    (h : variableDeclaration.readAt? code = some d) :
    firstWord code = "var".toList := by
  obtain ⟨rest, h⟩ := readAt?_eq_some h
  exact (congrArg firstWord (List.map_id code)).symm.trans (variableDeclaration_firstWord h)

theorem firstWord_of_import (h : importStatement.readAt? code ≠ none) :
    firstWord code = "import".toList := by
  obtain ⟨u, h⟩ := Option.ne_none_iff_exists'.mp h
  obtain ⟨rest, h⟩ := readAt?_eq_some h
  exact (congrArg firstWord (List.map_id code)).symm.trans (importStatement_firstWord h)

theorem firstWord_of_method {d : FunctionDefinition Char} (h : functionDefinition.readAt? code =
    some d) (hmethod : d.method ≠ none) :
    firstWord code = "method".toList := by
  obtain ⟨rest, h⟩ := readAt?_eq_some h
  exact (congrArg firstWord (List.map_id code)).symm.trans (functionDefinition_firstWord h hmethod)

theorem firstWord_of_leading {w : String} (hw : (∀ c ∈ w.toList, Text.isWord c = true) ∧ w.toList ≠
    []) {k : LeadingKeyword Char} (h : (leadingKeyword w).readAt? code = some k) :
      firstWord code = w.toList := by
  obtain ⟨rest, h⟩ := readAt?_eq_some h
  exact (congrArg firstWord (List.map_id code)).symm.trans (leadingKeyword_firstWord hw h)

theorem firstWord_of_export (h : exportHead.readAt? code ≠ none) :
    firstWord code = "export".toList := by
  obtain ⟨v, h⟩ := Option.ne_none_iff_exists'.mp h
  obtain ⟨rest, h⟩ := readAt?_eq_some h
  exact (congrArg firstWord (List.map_id code)).symm.trans (exportHead_firstWord h)

theorem firstWord_of_declaration {call : DeclarationCall}
    (h : declaration.readAt? code = some call) :
    firstWord code = call.name.toList := by
  obtain ⟨rest, h⟩ := readAt?_eq_some h
  exact (congrArg firstWord (List.map_id code)).symm.trans (declaration_firstWord h)

theorem name_of_variable {d : VariableDeclaration Char}
    (h : variableDeclaration.readAt? code = some d) :
    d.name ≠ [] ∧ ∀ c ∈ d.name, Text.isWord c = true := by
  obtain ⟨rest, h⟩ := readAt?_eq_some h
  obtain ⟨gap, type, assigned, -, -, -, -, -, hassigned, -⟩ := variableDeclaration_parts h
  obtain ⟨name, rest₁, hname, hassigned⟩ := bind_eq_some.mp hassigned
  obtain ⟨blanks, rest₂, -, hassigned⟩ := discard_bind_eq_some.mp hassigned
  obtain ⟨sign, rest₃, -, hassigned⟩ := discard_bind_eq_some.mp hassigned
  obtain ⟨rfl, -⟩ := Prod.mk.inj (pure_eq_some.mp hassigned)
  exact (name_eq_some hname).2

theorem functionDefinition_of_declared {d : VariableDeclaration Char}
    (h : variableDeclaration.readAt? code = some d) :
    functionDefinition.readAt? code = none := by
  obtain ⟨rest, h⟩ := readAt?_eq_some h
  exact readAt?_of_none (functionDefinition_of_variable h)

theorem firstWord_marked (b : Text) {indent : Text}
    (hindent : ∀ c ∈ indent, Text.isBlank c = true) :
    firstWord (indent ++ ("method ".toList ++ b)) = "method".toList :=
  @firstWord_cons indent "method".toList b ' ' hindent (by decide) (by decide) (by decide)

end FirstWords

end PineTools
