import PineTools.Construct.Statement
import PineTools.Proofs.Pattern.Matches
import PineTools.Proofs.Text.Lines

namespace PineTools

open Reader

variable {α : Type}

theorem Pattern.atLineStart_eq_some {β : Type} {r : Reader α β} {before : Option Char} {gs : List α}
    {v : β × List α} :
    Pattern.atLineStart r before gs = some v ↔ (before = none ∨ before = some '\n') ∧
    r gs = some v := by
  cases before with
  | none => simp [Pattern.atLineStart]
  | some c =>
    by_cases hc : c = '\n'
    · simp [Pattern.atLineStart, hc]
    · simp [Pattern.atLineStart, hc, failure_eq_none]

variable [Glyph α]

theorem Text.isWord_of_isNameStart {c : Char} (h : Text.isNameStart c = true) :
    Text.isWord c = true := by
  have hlt : c.toNat < 0x80 := by
    simp only [isNameStart, isLatin, Bool.or_eq_true, Bool.and_eq_true, decide_eq_true_eq,
      beq_iff_eq] at h
    rcases h with (⟨-, h⟩ | ⟨-, h⟩) | rfl
    · exact Nat.lt_of_le_of_lt (UInt32.le_iff_toNat_le.mp h) (by decide)
    · exact Nat.lt_of_le_of_lt (UInt32.le_iff_toNat_le.mp h) (by decide)
    · decide
  rw [isWord, if_pos hlt]
  rcases Bool.or_eq_true_iff.mp h with h | h
  · rw [h]
    rfl
  · rw [h, Bool.or_true]

/-- The glyphs of the head of an exported variable: the keyword, the kind and the name with blanks
between them, and the assignment sign with its blanks. -/
structure ExportHead (head kind name : List α) : Prop where
  parts : ∃ keyword blanks₁ blanks₂ blanks₃ equals blanks₄,
    head = keyword ++ (blanks₁ ++ (kind ++ (blanks₂ ++ (name ++ (blanks₃ ++ equals :: blanks₄))))) ∧
      seenText keyword = "export".toList ∧ Glyph.seen equals = '=' ∧ blanks₁ ≠ [] ∧ blanks₂ ≠ [] ∧
      ∀ g ∈ blanks₁ ++ (blanks₂ ++ (blanks₃ ++ blanks₄)), Text.isBlank (Glyph.seen g) = true
  kind : ∃ w ∈ exportKinds, seenText kind = w.toList
  name : name ≠ [] ∧ ∀ g ∈ name, Text.isWord (Glyph.seen g) = true

def ExportTail (tail : List α) : Prop :=
  ∃ before semicolon after, tail = before ++ (semicolon ++ after) ∧ semicolon.length ≤ 1 ∧
    (∀ g ∈ semicolon, Glyph.seen g = ';') ∧ ∀ g ∈ before ++ after,
    Text.isBlank (Glyph.seen g) = true

theorem name_eq_some {gs v rest : List α} (h : name gs = some (v, rest)) :
    gs = v ++ rest ∧ v ≠ [] ∧ ∀ g ∈ v, Text.isWord (Glyph.seen g) = true := by
  obtain ⟨x, rest₁, hx, h⟩ := bind_eq_some.mp h
  obtain ⟨xs, rest₂, hxs, h⟩ := bind_eq_some.mp h
  cases pure_eq_some.mp h
  obtain ⟨rfl, hstart⟩ := one_eq_some.mp hx
  obtain ⟨rfl, hall⟩ := takes_run _ hxs
  exact ⟨rfl, List.cons_ne_nil x xs,
    List.forall_mem_cons.mpr ⟨Text.isWord_of_isNameStart hstart, hall⟩⟩

theorem head_not_of_run {p : Char → Bool} {gs v rest : List α} (h : run p gs = some (v, rest))
    {g : α} {gs' : List α} (e : rest = g :: gs') : p (Glyph.seen g) = false := by
  obtain ⟨-, hrest⟩ := run_eq_some.mp h
  have := List.head?_dropWhile_not (fun g : α => p (Glyph.seen g)) gs
  rw [← hrest, e] at this
  simpa using this

omit [Glyph α] in
theorem inTurn_cons_eq_some {r : Reader α (List α)} {rs : List (Reader α (List α))}
    {gs v rest : List α} : inTurn (r :: rs) gs = some (v, rest) ↔
      ∃ first rest' more, r gs = some (first, rest') ∧ inTurn rs rest' = some (more, rest) ∧
        v = first ++ more := by
  constructor
  · intro h
    obtain ⟨first, rest', hfirst, h⟩ := bind_eq_some.mp h
    obtain ⟨more, rest'', hmore, h⟩ := bind_eq_some.mp h
    cases pure_eq_some.mp h
    exact ⟨first, rest', more, hfirst, hmore, rfl⟩
  · rintro ⟨first, rest', more, hfirst, hmore, rfl⟩
    exact bind_eq_some.mpr ⟨_, _, hfirst, bind_eq_some.mpr ⟨_, _, hmore, pure_eq_some.mpr rfl⟩⟩

omit [Glyph α] in
theorem inTurn_singleton_eq_some {r : Reader α (List α)} {gs v rest : List α} :
    inTurn [r] gs = some (v, rest) ↔ r gs = some (v, rest) := by
  rw [inTurn_cons_eq_some]
  constructor
  · rintro ⟨first, rest', more, hfirst, hmore, rfl⟩
    cases pure_eq_some.mp hmore
    rwa [List.append_nil]
  · exact fun h => ⟨v, rest, [], h, rfl, (List.append_nil v).symm⟩

theorem exportKind_eq_some {gs v rest : List α} (h : firstOf (exportKinds.map word) gs =
    some (v, rest)) :
    gs = v ++ rest ∧ ∃ w ∈ exportKinds, seenText v = w.toList := by
  obtain ⟨x, hx, h⟩ := firstOf_eq_some h
  obtain ⟨w, hw, rfl⟩ := List.mem_map.mp hx
  obtain ⟨e, hseen⟩ := exactly_eq_some.mp h
  exact ⟨e, w, hw, hseen⟩

theorem exportClosing_eq_some {gs v rest : List α}
    (h : inTurn [run (· == ';') >>= fun gs => if gs.length ≤ 1 then return gs else failure, blanks]
      gs = some (v, rest)) :
    gs = v ++ rest ∧ ∃ semicolon after, v = semicolon ++ after ∧ semicolon.length ≤ 1 ∧
      (∀ g ∈ semicolon, Glyph.seen g = ';') ∧ ∀ g ∈ after, Text.isBlank (Glyph.seen g) = true := by
  obtain ⟨semicolon, rest₁, after, hsemicolon, hblanks, rfl⟩ := inTurn_cons_eq_some.mp h
  obtain ⟨found, rest₂, hfound, hlength⟩ := bind_eq_some.mp hsemicolon
  obtain ⟨rfl, hseen⟩ := takes_run _ hfound
  obtain ⟨rfl, hafter⟩ := takes_run _ (inTurn_singleton_eq_some.mp hblanks)
  split at hlength
  · cases pure_eq_some.mp hlength
    refine ⟨(List.append_assoc ..).symm, semicolon, after, rfl, ‹_›, fun g hg => ?_, hafter⟩
    simpa using hseen g hg
  · cases hlength

theorem assign_eq_some {gs rest : List α} {g : α} (h : assign gs = some (g, rest)) :
    gs = g :: rest ∧ Glyph.seen g = '=' := by
  obtain ⟨g', rest₁, hequals, h⟩ := bind_eq_some.mp h
  obtain ⟨u, rest₂, hend, h⟩ := bind_eq_some.mp h
  cases pure_eq_some.mp h
  obtain ⟨-, e⟩ := notAhead_eq_some.mp hend
  cases e
  obtain ⟨e, hseen⟩ := one_eq_some.mp hequals
  exact ⟨e, beq_iff_eq.mp hseen⟩

theorem endOfLine_eq_some {gs : List α} {r : Unit × List α} (h : endOf (· != '\n') gs = some r) :
    r = ((), gs) ∧ (gs = [] ∨ ∃ g gs', gs = g :: gs' ∧ Glyph.seen g = '\n') := by
  obtain ⟨hover, e⟩ := notAhead_eq_some.mp h
  refine ⟨e, ?_⟩
  cases gs with
  | nil => exact .inl rfl
  | cons g gs =>
    refine .inr ⟨g, gs, rfl, ?_⟩
    simpa [one] using hover

theorem exportedVariable_eq_some {before : Option Char} {gs rest : List α} {v : ExportedVariable α}
    (h : exportedVariable before gs = some (v, rest)) :
    (before = none ∨ before = some '\n') ∧
    (rest = [] ∨ ∃ g gs', rest = g :: gs' ∧ Glyph.seen g = '\n') ∧
      (∀ g ∈ v.indent, Text.isBlank (Glyph.seen g) = true) ∧
      (∀ g ∈ v.value, Glyph.seen g ≠ ';' ∧ Glyph.seen g ≠ '\n') ∧
      (∀ g, (v.value ++ v.tail).head? = some g → Text.isBlank (Glyph.seen g) = false) ∧
      (∀ g, v.value.getLast? = some g → Text.isBlank (Glyph.seen g) = false) ∧ ExportTail v.tail ∧
      ∃ head, ExportHead head v.kind v.name ∧
      gs = v.indent ++ (head ++ (v.value ++ (v.tail ++ rest))) := by
  obtain ⟨hbefore, h⟩ := Pattern.atLineStart_eq_some.mp h
  obtain ⟨indent, rest₁, hindent, h⟩ := bind_eq_some.mp h
  obtain ⟨keyword, rest₂, hkeyword, h⟩ := discard_bind_eq_some.mp h
  obtain ⟨blanks₁, rest₃, hblanks₁, h⟩ := discard_bind_eq_some.mp h
  obtain ⟨kind, rest₄, hkind, h⟩ := bind_eq_some.mp h
  obtain ⟨blanks₂, rest₅, hblanks₂, h⟩ := discard_bind_eq_some.mp h
  obtain ⟨name, rest₆, hname, h⟩ := bind_eq_some.mp h
  obtain ⟨blanks₃, rest₇, hblanks₃, h⟩ := discard_bind_eq_some.mp h
  obtain ⟨equals, rest₈, hassign, h⟩ := discard_bind_eq_some.mp h
  obtain ⟨blanks₄, rest₁₁, hblanks₄, h⟩ := discard_bind_eq_some.mp h
  obtain ⟨body, rest₁₂, hbody, h⟩ := bind_eq_some.mp h
  obtain ⟨closing, rest₁₃, hclosing, h⟩ := bind_eq_some.mp h
  obtain ⟨u₁₄, rest₁₄, hstop, h⟩ := bind_eq_some.mp h
  cases pure_eq_some.mp h
  obtain ⟨e, hstops⟩ := endOfLine_eq_some hstop
  cases e
  obtain ⟨rfl, isIndent⟩ := takes_run _ hindent
  obtain ⟨rfl, isKeyword⟩ := exactly_eq_some.mp hkeyword
  obtain ⟨hne₁, hrun₁⟩ := run1_eq_some.mp hblanks₁
  obtain ⟨rfl, isBlank₁⟩ := takes_run _ hrun₁
  obtain ⟨rfl, isKind⟩ := exportKind_eq_some hkind
  obtain ⟨hne₂, hrun₂⟩ := run1_eq_some.mp hblanks₂
  obtain ⟨rfl, isBlank₂⟩ := takes_run _ hrun₂
  obtain ⟨rfl, isName⟩ := name_eq_some hname
  obtain ⟨rfl, isBlank₃⟩ := takes_run _ hblanks₃
  obtain ⟨rfl, isEquals⟩ := assign_eq_some hassign
  have hbegins := fun g gs' => @head_not_of_run _ _ _ _ _ _ hblanks₄ g gs'
  obtain ⟨rfl, isBlank₄⟩ := takes_run _ hblanks₄
  obtain ⟨rfl, isBody⟩ := takes_run _ hbody
  obtain ⟨rfl, semicolon, after, rfl, hlength, isSemicolon, isAfter⟩ :=
    exportClosing_eq_some hclosing
  obtain ⟨white, hvalue, isWhite⟩ :=
    Text.trimRight_append_white (fun g : α => Text.isBlank (Glyph.seen g)) body
  have hlast :=
    fun g => @Text.trimRight_getLast? _ (fun g : α => Text.isBlank (Glyph.seen g)) body g
  generalize Text.trimRight (fun g : α => Text.isBlank (Glyph.seen g)) body = value at *
  subst hvalue
  rw [List.drop_left' rfl]
  refine ⟨hbefore, hstops, isIndent, ?_, ?_, hlast,
    ⟨white, semicolon, after, rfl, hlength, isSemicolon, ?_⟩, keyword ++
      (blanks₁ ++ (kind ++ (blanks₂ ++ (name ++ (blanks₃ ++ equals :: blanks₄))))),
      ⟨?_, isKind, isName⟩, ?_⟩
  · intro g hg
    simpa using isBody g (List.mem_append_left white hg)
  · intro g hg
    obtain ⟨more, hmore⟩ := List.head?_eq_some_iff.mp hg
    refine hbegins g (more ++ rest) ?_
    rw [← List.cons_append, ← hmore]
    simp only [List.append_assoc]
  · exact List.forall_mem_append.mpr ⟨isWhite, isAfter⟩
  · refine ⟨keyword, blanks₁, blanks₂, blanks₃, equals, blanks₄, rfl, isKeyword, isEquals,
      hne₁, hne₂, ?_⟩
    simp only [List.forall_mem_append]
    exact ⟨isBlank₁, isBlank₂, isBlank₃, isBlank₄⟩
  · simp only [List.append_assoc, List.cons_append]

end PineTools
