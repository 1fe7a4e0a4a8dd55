import Mathlib.Data.List.Infix
import PineTools.Construct.Call

/-! Arguments as they are written into a call and as they are read back. An argument closes every
bracket that it opens and has its commas inside of brackets. The parenthesis that closes the call is
then the first that brings the depth back to zero, and the commas between the arguments are the only
ones at depth zero. -/
namespace PineTools

def bracketDepth (t : Text) : Int := t.countP isOpener - t.countP isCloser

/-- A text that can be an argument: it is not blank, its depth never falls below zero and ends
there, and no comma stands at depth zero. -/
structure IsArgument (a : Text) : Prop where
  solid : Text.isAllSpace a = false
  nested : ∀ p, p <+: a → 0 ≤ bracketDepth p
  closed : bracketDepth a = 0
  whole : ∀ p, p ++ [','] <+: a → bracketDepth p ≠ 0

instance (a : Text) : Decidable (IsArgument a) :=
  decidable_of_iff (Text.isAllSpace a = false ∧ (∀ p ∈ a.inits, 0 ≤ bracketDepth p) ∧
    bracketDepth a = 0 ∧
      ∀ p ∈ a.inits, p ++ [','] <+: a → bracketDepth p ≠ 0) <| by
    simp only [List.mem_inits]
    constructor
    · rintro ⟨solid, nested, closed, whole⟩
      exact ⟨solid, nested, closed, fun p hp => whole p ((List.prefix_append p [',']).trans hp) hp⟩
    · rintro ⟨solid, nested, closed, whole⟩
      exact ⟨solid, nested, closed, fun p _ hp => whole p hp⟩

theorem not_isCloser_of_isOpener {c : Char} (h : isOpener c = true) : isCloser c = false := by
  simp only [isOpener, Bracket.ofOpener?] at h
  split at h
  case isTrue hc => subst hc; rfl
  split at h
  case isTrue hc => subst hc; rfl
  split at h
  case isTrue hc => subst hc; rfl
  case isFalse => cases h

@[simp] theorem bracketDepth_nil : bracketDepth [] = 0 := rfl

theorem bracketDepth_append (a b : Text) :
    bracketDepth (a ++ b) = bracketDepth a + bracketDepth b := by
  simp only [bracketDepth, List.countP_append]
  omega

theorem bracketDepth_cons (c : Char) (t : Text) :
    bracketDepth (c :: t) = bracketDepth [c] + bracketDepth t :=
  bracketDepth_append [c] t

theorem deepen_eq (depth : Int) (c : Char) :
    (if isOpener c then depth + 1 else if isCloser c then depth - 1 else depth) =
      depth + bracketDepth [c] := by
  cases ho : isOpener c with
  | true => simp [bracketDepth, ho, not_isCloser_of_isOpener ho]
  | false =>
    cases hc : isCloser c with
    | true => simp [bracketDepth, ho, hc]; omega
    | false => simp [bracketDepth, ho, hc]

theorem enclosedFrom_cons (depth : Int) (c : Char) (t : Text) : enclosedFrom depth (c :: t) =
    if isCloser c && depth + bracketDepth [c] == 0 then some []
      else (enclosedFrom (depth + bracketDepth [c]) t).map (c :: ·) := by
  rw [enclosedFrom, deepen_eq]

/-- A text is passed over as long as the depth does not come back to zero. -/
theorem enclosedFrom_append {depth : Int} {t : Text} (h : ∀ p, p <+: t → p ≠ [] →
    depth + bracketDepth p ≠ 0) (rest : Text) :
    enclosedFrom depth (t ++ rest) = (enclosedFrom (depth + bracketDepth t) rest).map (t ++ ·) := by
  induction t generalizing depth with
  | nil => simp
  | cons c t ih =>
    have hc : depth + bracketDepth [c] ≠ 0 := h [c] (by simp) (by simp)
    have ht : ∀ p, p <+: t → p ≠ [] → depth + bracketDepth [c] + bracketDepth p ≠ 0 := by
      intro p hp _
      rw [Int.add_assoc, ← bracketDepth_cons]
      exact h (c :: p) ((List.prefix_cons_inj c).mpr hp) (List.cons_ne_nil c p)
    rw [List.cons_append, enclosedFrom_cons, ih ht, Int.add_assoc, ← bracketDepth_cons,
      Option.map_map]
    simp [hc]
    rfl

theorem splitArgumentsFrom_ne_nil (depth : Int) (t : Text) : splitArgumentsFrom depth t ≠ [] := by
  cases t with
  | nil => exact List.cons_ne_nil _ _
  | cons c t =>
    rw [splitArgumentsFrom, deepen_eq]
    split
    · exact List.cons_ne_nil _ _
    · split <;> exact List.cons_ne_nil _ _

theorem splitArgumentsFrom_cons (depth : Int) (c : Char) (t : Text) :
    splitArgumentsFrom depth (c :: t) =
    if c = ',' ∧ depth + bracketDepth [c] = 0 then [] :: splitArgumentsFrom
      (depth + bracketDepth [c]) t
    else (splitArgumentsFrom (depth + bracketDepth [c]) t).modifyHead (c :: ·) := by
  rw [splitArgumentsFrom, deepen_eq]
  cases hrest : splitArgumentsFrom (depth + bracketDepth [c]) t with
  | nil => exact absurd hrest (splitArgumentsFrom_ne_nil _ t)
  | cons p ps => rfl

/-- A text without a comma at depth zero belongs to the first argument. -/
theorem splitArgumentsFrom_append {depth : Int} {t : Text} (h : ∀ p, p ++ [','] <+: t →
    depth + bracketDepth p ≠ 0) (rest : Text) : splitArgumentsFrom depth (t ++ rest) =
      (splitArgumentsFrom (depth + bracketDepth t) rest).modifyHead (t ++ ·) := by
  induction t generalizing depth with
  | nil =>
    cases hrest : splitArgumentsFrom depth rest <;> simp [hrest]
  | cons c t ih =>
    have hc : ¬ (c = ',' ∧ depth + bracketDepth [c] = 0) := by
      rintro ⟨rfl, hzero⟩
      exact h [] (by simp) hzero
    have ht : ∀ p, p ++ [','] <+: t → depth + bracketDepth [c] + bracketDepth p ≠ 0 := by
      intro p hp
      rw [Int.add_assoc, ← bracketDepth_cons]
      exact h (c :: p) ((List.prefix_cons_inj c).mpr hp)
    rw [List.cons_append, splitArgumentsFrom_cons, if_neg hc, ih ht, Int.add_assoc,
      ← bracketDepth_cons, List.modifyHead_modifyHead]
    rfl

def joinArguments (args : List Text) : Text := Text.joinWith [','] args

theorem joinArguments_cons_cons (a b : Text) (args : List Text) :
    joinArguments (a :: b :: args) = a ++ ',' :: joinArguments (b :: args) := by
  simp [joinArguments, Text.joinWith]

section Joined

variable {args : List Text} (h : ∀ a ∈ args, IsArgument a)
include h

theorem nested_joinArguments :
    (∀ p, p <+: joinArguments args → 0 ≤ bracketDepth p) ∧
    bracketDepth (joinArguments args) = 0 := by
  induction args with
  | nil =>
    refine ⟨fun p hp => ?_, rfl⟩
    obtain rfl := List.prefix_nil.mp hp
    exact Int.le_refl 0
  | cons a args ih =>
    obtain ⟨ha, hargs⟩ := List.forall_mem_cons.mp h
    cases args with
    | nil => exact ⟨ha.nested, ha.closed⟩
    | cons b args =>
      obtain ⟨hnested, hclosed⟩ := ih hargs
      have hcomma : bracketDepth [','] = 0 := rfl
      rw [joinArguments_cons_cons]
      refine ⟨fun p hp => ?_, ?_⟩
      · rcases List.prefix_or_prefix_of_prefix hp (List.prefix_append a _) with hpa | ⟨q, rfl⟩
        · exact ha.nested p hpa
        · rw [List.prefix_append_right_inj, List.prefix_cons_iff] at hp
          rw [bracketDepth_append, ha.closed, Int.zero_add]
          obtain rfl | ⟨r, rfl, hr⟩ := hp
          · exact Int.le_refl 0
          · rw [bracketDepth_cons, hcomma, Int.zero_add]
            exact hnested r hr
      · rw [bracketDepth_append, bracketDepth_cons, ha.closed, hcomma, hclosed]
        rfl

/-- The arguments are the pieces between the commas at depth zero. -/
theorem splitArgumentsFrom_joinArguments (hne : args ≠ []) :
    splitArgumentsFrom 0 (joinArguments args) = args := by
  induction args with
  | nil => exact absurd rfl hne
  | cons a args ih =>
    obtain ⟨ha, hargs⟩ := List.forall_mem_cons.mp h
    have hwhole : ∀ p, p ++ [','] <+: a → 0 + bracketDepth p ≠ 0 := by
      intro p hp
      rw [Int.zero_add]
      exact ha.whole p hp
    cases args with
    | nil =>
      have hlast := splitArgumentsFrom_append hwhole []
      rw [List.append_nil, splitArgumentsFrom, List.modifyHead_cons, List.append_nil] at hlast
      exact hlast
    | cons b args =>
      have hcomma (t : Text) : splitArgumentsFrom 0 (',' :: t) = [] :: splitArgumentsFrom 0 t := rfl
      rw [joinArguments_cons_cons, splitArgumentsFrom_append hwhole, ha.closed,
        Int.zero_add, hcomma, ih hargs (List.cons_ne_nil b args), List.modifyHead_cons,
        List.append_nil]

theorem splitArguments_joinArguments : splitArguments (joinArguments args) = args := by
  have hsolid : ∀ a ∈ args, !Text.isAllSpace a := by
    intro a ha
    rw [(h a ha).solid]
    rfl
  cases args with
  | nil => rfl
  | cons a args =>
    rw [splitArguments, splitArgumentsFrom_joinArguments h (List.cons_ne_nil a args),
      List.filter_eq_self]
    exact hsolid

end Joined

/-- What a call encloses: the closing parenthesis is the first that brings the depth back to zero.
-/
theorem callArguments_of_nested {inner : Text} (hnested : ∀ p, p <+: inner → 0 ≤ bracketDepth p)
    (hclosed : bracketDepth inner = 0) (before after : Text) :
    callArguments (before ++ '(' :: (inner ++ ')' :: after)) before.length = some inner := by
  have hpositive : ∀ p, p <+: inner → p ≠ [] → 1 + bracketDepth p ≠ 0 := by
    intro p hp _
    have := hnested p hp
    omega
  have hopen (t : Text) : enclosedFrom 0 ('(' :: t) = (enclosedFrom 1 t).map ('(' :: ·) := rfl
  have hclose : enclosedFrom 1 (')' :: after) = some [] := rfl
  rw [callArguments, List.drop_left, hopen, enclosedFrom_append hpositive, hclosed,
    Int.add_zero, hclose]
  simp

/-- A call gives back the arguments that were written into it, whatever stands before and behind it.
-/
theorem call_gives_back_arguments {args : List Text} (h : ∀ a ∈ args, IsArgument a)
    (before after : Text) :
    callArguments (before ++ '(' :: (joinArguments args ++ ')' :: after)) before.length =
      some (joinArguments args) ∧
      splitArguments (joinArguments args) = args := by
  obtain ⟨hnested, hclosed⟩ := nested_joinArguments h
  exact ⟨callArguments_of_nested hnested hclosed before after, splitArguments_joinArguments h⟩

/-- Arguments with brackets of all kinds, between texts that leave brackets open. -/
theorem call_gives_back_arguments_mixed :
    let args := ["f(a, [b, c])".toList, " \x7bd, (e)\x7d".toList, "g".toList]
    (∀ a ∈ args, IsArgument a) ∧
      callArguments ("h([".toList ++ '(' :: (joinArguments args ++ ')' :: "), (x".toList)) 3 =
        some (joinArguments args) ∧
      splitArguments (joinArguments args) = args := by
  intro args
  have h : ∀ a ∈ args, IsArgument a := by decide
  exact ⟨h, call_gives_back_arguments h "h([".toList "), (x".toList⟩

end PineTools
