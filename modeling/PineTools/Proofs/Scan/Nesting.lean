import PineTools.Proofs.Scan.Reports
import PineTools.Proofs.Scan.Revision

/-! When a scan reports nothing. The bracket stack raises no issue and keeps no opener exactly if
the brackets in code form a well-nested word, and no literal or comment is reported exactly if none
is going on at the end of a line or of the script. -/
namespace PineTools

open Mode

/-- Words in which every opener is closed by the closer of its kind. -/
inductive WellNested : Text → Prop
  | nil : WellNested []
  | enclose (k : Bracket) {w w' : Text} (inner : WellNested w) (behind : WellNested w') :
      WellNested (k.opener :: (w ++ k.closer :: w'))

/-- Words that close the given openers, the last one first, and are well nested apart from that. -/
inductive Closes : List Bracket → Text → Prop
  | done {w : Text} (inner : WellNested w) : Closes [] w
  | close {k : Bracket} {ks : List Bracket} {w w' : Text} (inner : WellNested w)
  (behind : Closes ks w') :
      Closes (k :: ks) (w ++ k.closer :: w')

theorem Bracket.opener_ne_closer (k k' : Bracket) : k.opener ≠ k'.closer := by
  cases k <;> cases k' <;> decide

theorem Bracket.opener_inj {k k' : Bracket} (h : k.opener = k'.opener) : k = k' := by
  revert h
  cases k <;> cases k' <;> decide

theorem Bracket.closer_inj {k k' : Bracket} (h : k.closer = k'.closer) : k = k' := by
  revert h
  cases k <;> cases k' <;> decide

theorem closes_nil_iff (ks : List Bracket) : Closes ks [] ↔ ks = [] := by
  constructor
  · intro h
    cases ks with
    | nil => rfl
    | cons k ks =>
      generalize hw : ([] : Text) = w at h
      cases h with
      | close inner behind => simp at hw
  · rintro rfl
    exact .done .nil

theorem closes_opener_iff (ks : List Bracket) (k : Bracket) (w : Text) :
    Closes ks (k.opener :: w) ↔ Closes (k :: ks) w := by
  constructor
  · intro h
    generalize hv : k.opener :: w = v at h
    -- The first bracket of a well-nested word is an opener, and the word goes on behind its closer.
    have hfirst {u rest : Text} (hu : WellNested u) (e : k.opener :: w = u ++ rest)
      (hne : rest.head? ≠ some k.opener) :
        ∃ u₁ u₂, WellNested u₁ ∧ WellNested u₂ ∧ w = u₁ ++ k.closer :: (u₂ ++ rest) := by
      cases hu with
      | nil =>
        rw [List.nil_append] at e
        rw [← e] at hne
        exact absurd rfl hne
      | @enclose k' u₁ u₂ inner behind =>
        rw [List.cons_append, List.cons.injEq, List.append_assoc, List.cons_append] at e
        obtain rfl := Bracket.opener_inj e.1
        exact ⟨u₁, u₂, inner, behind, e.2⟩
    cases h with
    | done inner =>
      obtain ⟨u₁, u₂, h₁, h₂, rfl⟩ := hfirst inner (hv.trans (List.append_nil _).symm) (nomatch ·)
      rw [List.append_nil]
      exact .close h₁ (.done h₂)
    | @close k' ks u u' inner behind =>
      have hne : (k'.closer :: u').head? ≠ some k.opener := fun e =>
        Bracket.opener_ne_closer k k' (Option.some.inj e).symm
      obtain ⟨u₁, u₂, h₁, h₂, rfl⟩ := hfirst inner hv hne
      exact .close h₁ (.close h₂ behind)
  · intro h
    cases h with
    | @close _ _ u u' inner behind =>
      cases behind with
      | done inner' => exact .done (.enclose k inner inner')
      | @close k' ks v v' inner' behind' =>
        have e : k.opener :: (u ++ k.closer :: (v ++ k'.closer :: v')) =
            (k.opener :: (u ++ k.closer :: v)) ++ k'.closer :: v' := by simp
        rw [e]
        exact .close (.enclose k inner inner') behind'

theorem closes_closer_iff (ks : List Bracket) (k : Bracket) (w : Text) :
    Closes ks (k.closer :: w) ↔ ∃ below, ks = k :: below ∧ Closes below w := by
  constructor
  · intro h
    generalize hv : k.closer :: w = v at h
    -- No well-nested word begins with a closer.
    have hempty {u rest : Text} (hu : WellNested u) (e : k.closer :: w = u ++ rest) : u = [] := by
      cases hu with
      | nil => rfl
      | @enclose k' u₁ u₂ inner behind =>
        rw [List.cons_append, List.cons.injEq] at e
        exact absurd e.1.symm (Bracket.opener_ne_closer k' k)
    cases h with
    | done inner =>
      have := hempty inner (hv.trans (List.append_nil _).symm)
      rw [this] at hv
      cases hv
    | @close k' below u u' inner behind =>
      obtain rfl := hempty inner hv
      rw [List.nil_append, List.cons.injEq] at hv
      obtain rfl := Bracket.closer_inj hv.1
      exact ⟨below, rfl, hv.2 ▸ behind⟩
  · rintro ⟨below, rfl, h⟩
    exact .close .nil h

theorem closes_empty_iff (w : Text) : Closes [] w ↔ WellNested w := by
  constructor
  · intro h
    cases h with
    | done inner => exact inner
  · exact .done

def Cell.isBracket (c : Cell) : Bool := c.isCode && (isOpener c.char || isCloser c.char)

/-- The brackets of a script that lie in code, in order. -/
def codeBrackets (t : Text) : Text := ((cells t).filter Cell.isBracket).map Cell.char

theorem bracketCounts_eq_zero_iff (stack : List Bracket) (cs : List Cell) :
    bracketCounts stack cs = (0, 0) ↔ Closes stack ((cs.filter Cell.isBracket).map Cell.char) := by
  induction cs generalizing stack with
  | nil =>
    rw [List.filter_nil, List.map_nil, closes_nil_iff, bracketCounts, Prod.mk.injEq,
      List.length_eq_zero_iff]
    exact and_iff_right rfl
  | cons c cs ih =>
    rw [bracketCounts, List.filter_cons, Cell.isBracket, isOpener, isCloser]
    by_cases hcode : c.isCode = true
    · rw [if_pos hcode, hcode, Bool.true_and]
      cases ho : Bracket.ofOpener? c.char with
      | some kind =>
        have hchar : c.char = kind.opener := Bracket.ofOpener?_eq_some.mp ho
        simp only [Option.isSome_some, Bool.true_or, if_true, List.map_cons, hchar,
          closes_opener_iff, ih]
      | none =>
        cases hc : Bracket.ofCloser? c.char with
        | none => exact ih stack
        | some kind =>
          have hchar : c.char = kind.closer := Bracket.ofCloser?_eq_some.mp hc
          simp only [Option.isSome_none, Option.isSome_some, Bool.false_or, if_true, List.map_cons,
            hchar, closes_closer_iff]
          cases stack with
          | nil => simp
          | cons top below =>
            by_cases hk : top = kind
            · subst hk
              simp only [if_true, ih, List.cons.injEq, true_and]
              constructor
              · exact fun h => ⟨below, rfl, h⟩
              · rintro ⟨_, rfl, h⟩
                exact h
            · simp [hk]
    · rw [if_neg hcode, Bool.eq_false_iff.mpr hcode, Bool.false_and, if_neg Bool.false_ne_true]
      exact ih stack

theorem matchBrackets_eq_nil_iff (t : Text) :
    (matchBrackets t).issues = [] ∧ (matchBrackets t).unclosed = [] ↔
      WellNested (codeBrackets t) := by
  have hcounts := bracketsFrom_counts [] 1 (cells t)
  rw [List.map_nil, ← matchBrackets] at hcounts
  rw [codeBrackets, ← closes_empty_iff, ← bracketCounts_eq_zero_iff, ← hcounts, Prod.mk.injEq,
    List.length_eq_zero_iff, List.length_eq_zero_iff]

/-- No literal is going on at the end of a line or of the script. -/
def LiteralsEnd (t : Text) : Prop :=
  ∀ i ≤ t.length, (t.drop i).head? = none ∨ (t.drop i).head? = some '\n' →
    (modeAt t i).inLiteral = false

theorem unclosedFrom_eq_nil_iff (m : Mode) (number : Nat) (t : Text) :
    unclosedFrom m number t = [] ↔
    ∀ i ≤ t.length, (t.drop i).head? = none ∨ (t.drop i).head? = some '\n' →
      ∀ q, m.after (t.drop i).head? (t.take i) ≠ .literal q := by
  induction t generalizing m number with
  | nil =>
    rw [unclosedFrom_nil, openAt_eq_nil_iff]
    constructor
    · intro h i _ _
      rw [List.take_nil]
      exact h
    · exact fun h => h 0 (Nat.le_refl 0) (.inl rfl)
  | cons c cs ih =>
    rw [unclosedFrom_step, List.append_eq_nil_iff, ih]
    constructor
    · rintro ⟨hfirst, hrest⟩ i hi hend
      cases i with
      | zero =>
        rcases hend with hend | hend
        · cases hend
        · rw [if_pos (Option.some.inj hend), openAt_eq_nil_iff] at hfirst
          exact hfirst
      | succ i =>
        rw [List.drop_succ_cons] at hend ⊢
        have hhead : (cs.take i).head?.or (cs.drop i).head? = cs.head? := by
          rw [← List.head?_append, List.take_append_drop]
        rw [List.take_succ_cons, Mode.after, hhead]
        exact hrest i (Nat.le_of_succ_le_succ hi) hend
    · intro h
      constructor
      · split
        case isTrue hc =>
          rw [openAt_eq_nil_iff]
          exact h 0 (Nat.zero_le _) (.inr (congrArg some hc))
        case isFalse => rfl
      · intro i hi hend
        have := h (i + 1) (Nat.succ_le_succ hi)
        rw [List.drop_succ_cons, List.take_succ_cons, Mode.after, ← List.head?_append,
          List.take_append_drop] at this
        exact this hend

theorem unclosedLiterals_eq_nil_iff (t : Text) : unclosedLiterals t = [] ↔ LiteralsEnd t := by
  rw [unclosedLiterals, unclosedFrom_eq_nil_iff, LiteralsEnd]
  refine forall₃_congr fun i _ hend => ?_
  have hsettled := settled_modeAt hend
  rw [← modeAt]
  cases hm : modeAt t i with
  | literal q => exact ⟨fun h => absurd rfl (h q), fun h => by cases h⟩
  | escaped q =>
    rw [hm] at hsettled
    cases hsettled
  | code b | line | lineSecond | block | blockSecond | blockLast =>
    exact ⟨fun _ => rfl, fun _ _ => Mode.noConfusion⟩

theorem openComment?_isSome_iff (t : Text) :
    (openComment? t).isSome = (modeAt t t.length).inBlock := by
  rw [openComment?_isSome, substance_inComment rfl, modeAt_length]

end PineTools
