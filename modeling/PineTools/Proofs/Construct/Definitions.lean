import PineTools.Proofs.Construct.Calls
import PineTools.Proofs.Construct.LineByLine
import PineTools.Proofs.Construct.Statements

namespace PineTools

open Reader

variable {α : Type} [Glyph α]

theorem blanks_eq_some {gs v rest : List α} (h : blanks gs = some (v, rest)) :
    gs = v ++ rest ∧ ∀ g ∈ v, Text.isBlank (Glyph.seen g) = true := takes_run _ h

theorem head_of_run1 {p : Char → Bool} {gs v rest : List α} (h : run1 p gs = some (v, rest)) :
    ∃ g gs', gs = g :: gs' ∧ p (Glyph.seen g) = true := by
  obtain ⟨rfl, hall⟩ := takes_run1 _ h
  cases v with
  | nil => exact absurd rfl (run1_eq_some.mp h).1
  | cons g v => exact ⟨g, v ++ rest, rfl, hall g List.mem_cons_self⟩

theorem leadingKeyword_eq_some {w : String} {gs rest : List α} {v : LeadingKeyword α}
    (h : leadingKeyword w none gs = some (v, rest)) :
    gs = v.indent ++ (v.keyword ++ rest) ∧ (∀ g ∈ v.indent, Text.isBlank (Glyph.seen g) = true) ∧
      seenText v.keyword = w.toList ∧ ∃ g gs', rest = g :: gs' ∧
      Text.isBlank (Glyph.seen g) = true := by
  obtain ⟨indent, rest₁, hindent, h⟩ := bind_eq_some.mp h
  obtain ⟨keyword, rest₂, hkeyword, h⟩ := bind_eq_some.mp h
  obtain ⟨_, rest₃, hahead, h⟩ := bind_eq_some.mp h
  cases pure_eq_some.mp h
  obtain ⟨hblank, e⟩ := ahead_eq_some.mp hahead
  cases e
  obtain ⟨⟨_, _⟩, hblank⟩ := Option.isSome_iff_exists.mp hblank
  obtain ⟨rfl, isIndent⟩ := blanks_eq_some hindent
  obtain ⟨rfl, hseen⟩ := exactly_eq_some.mp hkeyword
  exact ⟨rfl, isIndent, hseen, head_of_run1 hblank⟩

theorem name_head {gs v rest : List α} (h : name gs = some (v, rest)) :
    ∃ g gs', gs = g :: gs' ∧ Text.isWord (Glyph.seen g) = true := by
  obtain ⟨first, rest₁, hfirst, -⟩ := bind_eq_some.mp h
  obtain ⟨rfl, hstart⟩ := one_eq_some.mp hfirst
  exact ⟨first, rest₁, rfl, Text.isWord_of_isNameStart hstart⟩

theorem leadingType_head {gs v rest : List α} (h : leadingType gs = some (v, rest)) :
    ∃ g gs', gs = g :: gs' ∧ Text.isWord (Glyph.seen g) = true := by
  have hplain {gs v rest : List α} (h : unqualifiedType gs = some (v, rest)) :
      ∃ g gs', gs = g :: gs' ∧ Text.isWord (Glyph.seen g) = true := by
    obtain ⟨first, rest₁, hfirst, -⟩ := bind_eq_some.mp h
    exact head_of_run1 hfirst
  obtain ⟨type, rest₁, htype, -⟩ := bind_eq_some.mp h
  rcases orElse_eq_some.mp htype with htype | ⟨-, htype⟩
  · obtain ⟨qualifier, rest₂, hqualifier, -⟩ := bind_eq_some.mp htype
    obtain ⟨first, rest₃, hfirst, -⟩ := bind_eq_some.mp hqualifier
    exact head_of_run1 hfirst
  · exact hplain htype

/-- A variable is declared by a keyword behind blanks, and by a name with perhaps a type in front of
it behind more of them. -/
theorem variableDeclaration_parts {gs rest : List α} {v : VariableDeclaration α}
    (h : variableDeclaration none gs = some (v, rest)) :
    ∃ gap type assigned, gs = v.indent ++ (v.keyword ++ (gap ++ (type ++ assigned))) ∧
      (∀ g ∈ v.indent, Text.isBlank (Glyph.seen g) = true) ∧ seenText v.keyword = "var".toList ∧
      gap ≠ [] ∧ (∀ g ∈ gap, Text.isBlank (Glyph.seen g) = true) ∧ assignedName assigned =
        some (v.name, rest) ∧
      ∃ x gs', type ++ assigned = x :: gs' ∧ Text.isWord (Glyph.seen x) = true := by
  rw [variableDeclaration_none_eq] at h
  obtain ⟨indent, rest₁, hindent, h⟩ := bind_eq_some.mp h
  obtain ⟨keyword, rest₂, hkeyword, h⟩ := bind_eq_some.mp h
  obtain ⟨gap, rest₃, hgap, h⟩ := discard_bind_eq_some.mp h
  obtain ⟨e₁, isIndent⟩ := blanks_eq_some hindent
  obtain ⟨e₂, isKeyword⟩ := exactly_eq_some.mp hkeyword
  obtain ⟨e₃, isGap⟩ := takes_run1 _ hgap
  have e : gs = indent ++ (keyword ++ (gap ++ rest₃)) := by rw [e₁, e₂, e₃]
  have hne := (run1_eq_some.mp hgap).1
  obtain ⟨r, hr, h⟩ := firstOf_eq_some h
  simp only [List.mem_cons, List.not_mem_nil, or_false] at hr
  rcases hr with rfl | rfl
  · obtain ⟨type, rest₄, htype, h⟩ := bind_eq_some.mp h
    obtain ⟨name, rest₅, hname, h⟩ := bind_eq_some.mp h
    cases pure_eq_some.mp h
    obtain ⟨taken, e₄⟩ := trims_leadingType htype
    exact ⟨gap, taken, rest₄, by
      rw [e, e₄], isIndent, isKeyword, hne, isGap, hname, e₄ ▸ leadingType_head htype⟩
  · obtain ⟨name, rest₅, hname, h⟩ := bind_eq_some.mp h
    cases pure_eq_some.mp h
    obtain ⟨_, _, hfirst, -⟩ := bind_eq_some.mp hname
    exact ⟨gap, [], rest₃, e, isIndent, isKeyword, hne, isGap, hname, name_head hfirst⟩

theorem variableDeclaration_eq_some {gs rest : List α} {v : VariableDeclaration α}
    (h : variableDeclaration none gs = some (v, rest)) :
    ∃ gap x more, gs = v.indent ++ (v.keyword ++ (gap ++ x :: (more ++ rest))) ∧
      (∀ g ∈ v.indent, Text.isBlank (Glyph.seen g) = true) ∧ seenText v.keyword = "var".toList ∧
      gap ≠ [] ∧ (∀ g ∈ gap, Text.isBlank (Glyph.seen g) = true) ∧
      Text.isWord (Glyph.seen x) = true := by
  obtain ⟨gap, type, assigned, e, isIndent, isKeyword, hne, isGap, hname, x, gs', hx, isWord⟩ :=
    variableDeclaration_parts h
  obtain ⟨taken, htaken, rfl⟩ := eats_assignedName hname
  obtain ⟨y, more, hmore⟩ :=
    List.exists_cons_of_ne_nil (List.append_ne_nil_of_right_ne_nil type htaken)
  have hcons : type ++ (taken ++ rest) = y :: (more ++ rest) := by
    rw [← List.append_assoc, hmore, List.cons_append]
  obtain ⟨rfl, -⟩ := List.cons.inj (hcons.symm.trans hx)
  exact ⟨gap, y, more, by rw [e, hcons], isIndent, isKeyword, hne, isGap, isWord⟩

theorem methodMark_eq_some {gs m rest : List α} (h : methodMark gs = some (m, rest)) :
    gs = m ++ rest ∧ ∃ keyword gap, m = keyword ++ gap ∧ seenText keyword =
      "method".toList ∧ gap ≠ [] ∧
      ∀ g ∈ gap, Text.isBlank (Glyph.seen g) = true := by
  obtain ⟨keyword, rest₁, gap, hkeyword, hgap, rfl⟩ := inTurn_cons_eq_some.mp h
  obtain ⟨rfl, hseen⟩ := exactly_eq_some.mp hkeyword
  obtain ⟨hne, hgap⟩ := run1_eq_some.mp (inTurn_singleton_eq_some.mp hgap)
  obtain ⟨rfl, hall⟩ := takes_run _ hgap
  exact ⟨(List.append_assoc ..).symm, keyword, gap, rfl, hseen, hne, hall⟩

theorem definitionFromName_head {gs rest : List α} {v : List α × List α}
    (h : definitionFromName gs = some (v, rest)) :
    ∃ g gs', gs = g :: gs' ∧ Text.isWord (Glyph.seen g) = true := by
  obtain ⟨_, rest₁, hcontrol, h⟩ := bind_eq_some.mp h
  obtain ⟨-, e⟩ := notAhead_eq_some.mp hcontrol
  cases e
  obtain ⟨name, rest₂, hname, -⟩ := bind_eq_some.mp h
  exact name_head hname

/-- A definition without its indentation and keyword begins with a type or a name. -/
theorem plainDefinition_eq_some {indent : List α} {method : Option (List α)} {typed : Bool}
    {gs rest : List α} {v : FunctionDefinition α} (h : plainDefinition indent method typed gs =
      some (v, rest)) :
    v.indent = indent ∧ v.method = method ∧ (∃ taken, gs = taken ++ rest ∧ taken ≠ []) ∧
      ∃ g gs', gs = g :: gs' ∧ Text.isWord (Glyph.seen g) = true := by
  obtain ⟨taken, hne, htaken⟩ := eats_plainDefinition indent method typed h
  cases typed with
  | true =>
    obtain ⟨type, rest₁, htype, h⟩ := bind_eq_some.mp h
    obtain ⟨⟨name, params⟩, rest₂, hname, h⟩ := bind_eq_some.mp h
    cases pure_eq_some.mp h
    exact ⟨rfl, rfl, ⟨taken, htaken, hne⟩, leadingType_head htype⟩
  | false =>
    obtain ⟨⟨name, params⟩, rest₂, hname, h⟩ := bind_eq_some.mp h
    cases pure_eq_some.mp h
    exact ⟨rfl, rfl, ⟨taken, htaken, hne⟩, definitionFromName_head hname⟩

theorem functionDefinition_eq_some {gs rest : List α} {v : FunctionDefinition α}
    (h : functionDefinition none gs = some (v, rest)) :
    ∃ body typed, gs = v.indent ++ (v.method.getD [] ++ body) ∧
    (∀ g ∈ v.indent, Text.isBlank (Glyph.seen g) = true) ∧
      (∀ m, v.method = some m → methodMark (m ++ body) = some (m, body)) ∧
      plainDefinition v.indent v.method typed body = some (v, rest) := by
  rw [functionDefinition_none_eq] at h
  obtain ⟨indent, rest₁, hindent, h⟩ := bind_eq_some.mp h
  obtain ⟨e, isIndent⟩ := blanks_eq_some hindent
  obtain ⟨r, hr, h⟩ := firstOf_eq_some h
  have hmarked {typed : Bool}
    (h : (methodMark >>= fun m => plainDefinition indent (some m) typed) rest₁ = some (v, rest)) :
      ∃ body typed, gs = v.indent ++ (v.method.getD [] ++ body) ∧
      (∀ g ∈ v.indent, Text.isBlank (Glyph.seen g) = true) ∧
        (∀ m, v.method = some m → methodMark (m ++ body) = some (m, body)) ∧
        plainDefinition v.indent v.method typed body = some (v, rest) := by
    obtain ⟨m, body, hm, hbody⟩ := bind_eq_some.mp h
    obtain ⟨hv, hmethod, -⟩ := plainDefinition_eq_some hbody
    obtain ⟨e', -⟩ := methodMark_eq_some hm
    rw [e'] at hm
    rw [e, e', hv, hmethod]
    exact ⟨body, typed, rfl, isIndent, fun m' e => by rw [← Option.some.inj e]; exact hm, hbody⟩
  have hplain {typed : Bool} (h : plainDefinition indent none typed rest₁ = some (v, rest)) :
      ∃ body typed, gs = v.indent ++ (v.method.getD [] ++ body) ∧
      (∀ g ∈ v.indent, Text.isBlank (Glyph.seen g) = true) ∧
        (∀ m, v.method = some m → methodMark (m ++ body) = some (m, body)) ∧
        plainDefinition v.indent v.method typed body = some (v, rest) := by
    obtain ⟨hv, hmethod, -⟩ := plainDefinition_eq_some h
    rw [e, hv, hmethod]
    exact ⟨rest₁, typed, rfl, isIndent, fun m' e => absurd e (Option.some_ne_none m').symm, h⟩
  simp only [List.mem_cons, List.not_mem_nil, or_false] at hr
  rcases hr with rfl | rfl | rfl | rfl
  · exact hmarked h
  · exact hmarked h
  · exact hplain h
  · exact hplain h

theorem functionDefinition_taken {taken rest : List α} {v : FunctionDefinition α}
    (h : functionDefinition none (taken ++ rest) = some (v, rest)) :
    ∃ x inner, taken = v.indent ++ (v.method.getD [] ++ x :: inner) ∧
    (∀ g ∈ v.indent, Text.isBlank (Glyph.seen g) = true) ∧
      Text.isWord (Glyph.seen x) = true ∧
      ∀ m, v.method = some m → methodMark (m ++ (x :: inner ++ rest)) =
        some (m, x :: inner ++ rest) := by
  obtain ⟨body, typed, e, hindent, hmark, hplain⟩ := functionDefinition_eq_some h
  obtain ⟨-, -, ⟨inner, rfl, hne⟩, x, rest', hx, hword⟩ := plainDefinition_eq_some hplain
  cases inner with
  | nil => exact absurd rfl hne
  | cons y inner =>
    obtain ⟨rfl, -⟩ := List.cons.inj hx
    refine ⟨y, inner, (List.append_left_inj rest).mp (e.trans ?_), hindent, hword, hmark⟩
    simp only [List.append_assoc, List.cons_append]

end PineTools
