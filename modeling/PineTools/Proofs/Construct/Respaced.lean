import PineTools.Proofs.Construct.Demands
import PineTools.Proofs.Construct.FirstWord
import PineTools.Proofs.Pattern.Occurrences
import PineTools.Proofs.Scan.Places
import PineTools.Proofs.Text.PhysicalLines
import PineTools.Proofs.Validate.Acceptance

/-! Lines of masked code that differ in their blanks. As long as no word is cut in two and no two
words grow together, an export stays an export and a declaration a declaration, and as long as
nothing is put behind a dot, no word begins to stand alone. -/
namespace PineTools

open Reader

section Readings

variable {code : Text}

theorem seenText_text (t : Text) : seenText t = t := List.map_id t

theorem word_append (w : String) (rest : Text) :
    word w (w.toList ++ rest) = some (w.toList, rest) :=
  exactly_eq_some.mpr ⟨rfl, seenText_text _⟩

def Ends (t : Text) : Prop := ∀ c, t.head? = some c → Text.isWord c = false

theorem read_exportHead {indent gap w rest : Text} (hblank : ∀ c ∈ indent ++ gap, Text.isBlank c =
    true) (hne : gap ≠ []) (hw : w ∈ exportKinds.map String.toList) (hrest : Ends rest) :
    exportHead.readAt? (indent ++ ("export".toList ++ (gap ++ (w ++ rest)))) ≠ none := by
  have hkinds : ∀ w ∈ exportKinds, w.toList ≠ [] ∧ ∀ c ∈ w.toList, Text.isBlank c = false := by
    decide
  obtain ⟨hindent, hgap⟩ := List.forall_mem_append.mp hblank
  obtain ⟨kind, hkind, rfl⟩ := List.mem_map.mp hw
  obtain ⟨hwne, hfirst⟩ := hkinds kind hkind
  have hblanks1 : blanks1 (gap ++ (kind.toList ++ rest)) = some (gap, kind.toList ++ rest) :=
    run1_eq_some.mpr
      ⟨hne, run_append hgap fun c hc =>
      hfirst c (List.mem_of_head? ((List.head?_append_of_ne_nil _ hwne).symm.trans hc))⟩
  have hhead :
    inTurn [blanks, word "export", blanks1]
    (indent ++ ("export".toList ++ (gap ++ (kind.toList ++ rest)))) =
      some (indent ++ ("export".toList ++ (gap ++ [])), kind.toList ++ rest) := by
    refine bind_eq_some.mpr ⟨indent, _, run_append hindent fun c hc => Option.some.inj hc ▸ rfl, ?_⟩
    refine bind_eq_some.mpr ⟨_, _, bind_eq_some.mpr ⟨_, _, word_append _ _, ?_⟩,
      pure_eq_some.mpr rfl⟩
    exact bind_eq_some.mpr ⟨_, _, bind_eq_some.mpr ⟨_, _, hblanks1, bind_eq_some.mpr
      ⟨_, _, pure_eq_some.mpr rfl, pure_eq_some.mpr rfl⟩⟩, pure_eq_some.mpr rfl⟩
  have hread : firstOf (exportKinds.map fun w => do
      let gs ← word w
      endOf Text.isWord
      return gs) (kind.toList ++ rest) ≠ none := fun hnone => by
    refine Option.some_ne_none (kind.toList, rest)
      (Eq.trans (Eq.symm ?_) (firstOf_eq_none.mp hnone _ (List.mem_map_of_mem hkind)))
    exact bind_eq_some.mpr ⟨_, _, word_append kind rest, bind_eq_some.mpr
      ⟨_, _, endOf_eq_some.mpr ⟨hrest, rfl⟩, pure_eq_some.mpr rfl⟩⟩
  obtain ⟨⟨v, rest'⟩, hread⟩ := Option.ne_none_iff_exists'.mp hread
  exact Option.ne_none_iff_exists'.mpr
    ⟨_, readAt?_of_some (bind_eq_some.mpr ⟨_, _, hhead, bind_eq_some.mpr
    ⟨_, _, hread, pure_eq_some.mpr rfl⟩⟩)⟩

theorem exportHead_iff : exportHead.readAt? code ≠ none ↔ ∃ indent gap w rest : Text,
    code = indent ++ ("export".toList ++ (gap ++ (w ++ rest))) ∧
    (∀ c ∈ indent ++ gap, Text.isBlank c = true) ∧ gap ≠ [] ∧
      w ∈ exportKinds.map String.toList ∧ Ends rest := by
  constructor
  · intro h
    obtain ⟨v, h⟩ := Option.ne_none_iff_exists'.mp h
    obtain ⟨rest₀, h⟩ := readAt?_eq_some h
    obtain ⟨head, rest₁, hhead, h⟩ := bind_eq_some.mp h
    obtain ⟨indent, rest₂, tail, hindent, htail, rfl⟩ := inTurn_cons_eq_some.mp hhead
    obtain ⟨keyword, rest₃, gap, hkeyword, hgap, rfl⟩ := inTurn_cons_eq_some.mp htail
    have hgap := inTurn_singleton_eq_some.mp hgap
    obtain ⟨kind, rest₄, hkind, -⟩ := bind_eq_some.mp h
    obtain ⟨r, hr, hkind⟩ := firstOf_eq_some hkind
    obtain ⟨w, hw, rfl⟩ := List.mem_map.mp hr
    obtain ⟨v', rest, hword, hkind⟩ := bind_eq_some.mp hkind
    obtain ⟨_, _, hend, -⟩ := bind_eq_some.mp hkind
    obtain ⟨rfl, hseen⟩ := exactly_eq_some.mp hword
    obtain ⟨rfl, hexport⟩ := exactly_eq_some.mp hkeyword
    have hne := (run1_eq_some.mp hgap).1
    obtain ⟨rfl, isGap⟩ := takes_run1 _ hgap
    obtain ⟨rfl, isIndent⟩ := blanks_eq_some hindent
    rw [seenText_text] at hseen hexport
    subst hseen hexport
    exact ⟨indent, gap, w.toList, rest, rfl, List.forall_mem_append.mpr ⟨isIndent, isGap⟩, hne,
      List.mem_map_of_mem hw, (endOf_eq_some.mp hend).1⟩
  · rintro ⟨indent, gap, w, rest, rfl, hblank, hne, hw, hrest⟩
    exact read_exportHead hblank hne hw hrest

theorem declaration_iff :
    declaration.readAt? code ≠ none ↔ ∃ w gap rest : Text, code = w ++ (gap ++ '(' :: rest) ∧
    w ∈ DeclarationCall.all.map (fun call => call.name.toList) ∧ ∀ c ∈ gap,
      Text.isBlank c = true := by
  constructor
  · intro h
    obtain ⟨call, h⟩ := Option.ne_none_iff_exists'.mp h
    obtain ⟨rest, h⟩ := readAt?_eq_some h
    obtain ⟨keyword, gap, y, rfl, hseen, hgap, rfl⟩ := declaration_eq_some h
    rw [seenText_text] at hseen
    subst hseen
    exact ⟨_, gap, rest, rfl, List.mem_map.mpr ⟨call, by cases call <;> decide, rfl⟩, hgap⟩
  · rintro ⟨w, gap, rest, rfl, hw, hgap⟩
    obtain ⟨call, hcall, rfl⟩ := List.mem_map.mp hw
    have hblanks : blanks (gap ++ '(' :: rest) = some (gap, '(' :: rest) :=
      run_append hgap fun c hc => Option.some.inj hc ▸ rfl
    have hread : declaration none (call.name.toList ++ (gap ++ '(' :: rest)) ≠ none :=
      fun hnone => by
      refine Option.some_ne_none (call, rest)
        (Eq.trans (Eq.symm ?_) (firstOf_eq_none.mp hnone _ (List.mem_map_of_mem hcall)))
      exact discard_bind_eq_some.mpr ⟨_, _, word_append call.name _, discard_bind_eq_some.mpr
        ⟨_, _, hblanks,
          discard_bind_eq_some.mpr ⟨_, _, one_eq_some.mpr ⟨rfl, rfl⟩, pure_eq_some.mpr rfl⟩⟩⟩
    obtain ⟨⟨call', rest'⟩, hread⟩ := Option.ne_none_iff_exists'.mp hread
    exact Option.ne_none_iff_exists'.mpr ⟨_, readAt?_of_some hread⟩

theorem declarationNames_word : ∀ w ∈ DeclarationCall.all.map (fun call => call.name.toList),
    (∀ c ∈ w, Text.isWord c = true) ∧ w ≠ [] := by decide

theorem declaration_head (h : declaration.readAt? code ≠ none) :
    (∃ c rest, code = c :: rest ∧ Text.isWord c = true) ∧ '(' ∈ code := by
  obtain ⟨w, gap, rest, rfl, hw, -⟩ := declaration_iff.mp h
  obtain ⟨hword, hne⟩ := declarationNames_word w hw
  refine ⟨?_, by simp⟩
  obtain ⟨c, w, rfl⟩ := List.exists_cons_of_ne_nil hne
  exact ⟨c, _, rfl, hword c List.mem_cons_self⟩

theorem declaration_white (h : ∀ c ∈ code, Text.isSpace c = true) :
    declaration.readAt? code = none :=
  Classical.byContradiction fun hread => by
    have := h '(' (declaration_head hread).2
    exact absurd this (by decide)

/-- No name goes on at the end of the text, which stands behind the given character. -/
def Fresh (p : Option Char) (t : Text) : Prop := ∀ c, t.getLast?.or p = some c →
    Text.isWordOrDot c = false

theorem varipWord_iff : varipWord.occursIn code = true ↔
    ∃ a b : Text, code = a ++ ("varip".toList ++ b) ∧ Fresh none a ∧ Ends b := by
  have hread (before : Option Char) (gs : Text) : (varipWord before gs).isSome = true ↔
      (∀ c, before = some c → Text.isWordOrDot c = false) ∧ ∃ b : Text, gs = "varip".toList ++
        b ∧ Ends b := by
    rw [Option.isSome_iff_exists]
    constructor
    · rintro ⟨v, h⟩
      obtain ⟨hbefore, h⟩ := Pattern.fresh_eq_some.mp h
      obtain ⟨keyword, rest, hkeyword, h⟩ := discard_bind_eq_some.mp h
      obtain ⟨rfl, hseen⟩ := exactly_eq_some.mp hkeyword
      rw [seenText_text] at hseen
      subst hseen
      exact ⟨hbefore, rest, rfl, (endOf_eq_some.mp h).1⟩
    · rintro ⟨hbefore, b, rfl, hb⟩
      exact ⟨_, Pattern.fresh_eq_some.mpr ⟨hbefore, discard_bind_eq_some.mpr
        ⟨_, _, word_append _ _, endOf_eq_some.mpr ⟨hb, rfl⟩⟩⟩⟩
  rw [Pattern.occursIn_eq, Pattern.occursFrom_iff]
  constructor
  · rintro ⟨a, b, rfl, h⟩
    rw [Option.or_none, hread] at h
    obtain ⟨hfresh, b, rfl, hb⟩ := h
    refine ⟨a, b, rfl, fun c hc => hfresh c ?_, hb⟩
    rw [Option.or_none] at hc
    rw [hc]
    rfl
  · rintro ⟨a, b, rfl, hfresh, hb⟩
    refine ⟨a, "varip".toList ++ b, rfl, ?_⟩
    rw [Option.or_none, hread]
    refine ⟨fun c hc => ?_, b, rfl, hb⟩
    obtain ⟨d, hd, rfl⟩ := Option.map_eq_some_iff.mp hc
    exact hfresh d (by rw [hd, Option.some_or])

end Readings

/-- How the blanks between two signs may differ. Between two words, and at the start, there are some
in both texts or in neither. If wanted, none are put behind a dot. -/
structure Seam (strict : Prop) (p : Option Char) (c : Char) (gap gap' : Text) : Prop where
  word : Text.isWord c = true → p.all Text.isWord = true → (gap = [] ↔ gap' = [])
  dot (h : strict) : Text.isWord c = true → p = some '.' → gap' = [] → gap = []

/-- A text and another that has the same signs, read behind a given sign. -/
inductive Respaced (strict : Prop) : Option Char → Text → Text → Prop
  | done {p : Option Char} {new old : Text} : (∀ c ∈ new, Text.isSpace c = true) →
  (∀ c ∈ old, Text.isSpace c = true) →
      Respaced strict p new old
  | sign {p : Option Char} {c : Char} {gap gap' new old : Text} :
    (∀ c ∈ gap, Text.isBlank c = true) →
      (∀ c ∈ gap', Text.isBlank c = true) → Text.isBlank c = false → Seam strict p c gap gap' →
      Respaced strict (some c) new old → Respaced strict p (gap ++ c :: new) (gap' ++ c :: old)

namespace Respaced

variable {strict : Prop} {p : Option Char} {c : Char} {gap w new old : Text}

theorem flip (h : Respaced strict p new old) : Respaced False p old new := by
  induction h with
  | done hnew hold => exact .done hold hnew
  | sign hgap hgap' hc seam _ ih =>
    exact .sign hgap' hgap hc ⟨fun hw hp => (seam.word hw hp).symm, False.elim⟩ ih

theorem refl (strict : Prop) (p : Option Char) (t : Text) : Respaced strict p t t := by
  suffices ∀ gap : Text, (∀ c ∈ gap, Text.isBlank c = true) →
    Respaced strict p (gap ++ t) (gap ++ t) from
    this [] (List.forall_mem_nil _)
  induction t generalizing p with
  | nil =>
    intro gap hgap
    rw [List.append_nil]
    exact .done (Text.white_of_blanks hgap) (Text.white_of_blanks hgap)
  | cons c t ih =>
    intro gap hgap
    cases hc : Text.isBlank c with
    | true =>
      rw [List.append_cons]
      exact ih p (gap ++ [c]) (List.forall_mem_append.mpr ⟨hgap, List.forall_mem_singleton.mpr hc⟩)
    | false => exact .sign hgap hgap hc ⟨fun _ _ => Iff.rfl, fun _ _ _ e => e⟩ (ih (some c) []
        (List.forall_mem_nil _))

/-- Signs that stand together in both texts. -/
theorem run (hw : ∀ c ∈ w, Text.isBlank c = false)
    (h : Respaced strict (w.getLast?.or p) new old) : Respaced strict p (w ++ new) (w ++ old) := by
  induction w generalizing p with
  | nil => exact h
  | cons c w ih =>
    obtain ⟨hc, hw⟩ := List.forall_mem_cons.mp hw
    have nothing : ∀ c ∈ ([] : Text), Text.isBlank c = true := List.forall_mem_nil _
    refine @Respaced.sign strict p c [] [] _ _ nothing nothing hc
      ⟨fun _ _ => Iff.rfl, fun _ _ _ e => e⟩ (ih hw ?_)
    rw [List.getLast?_cons, Option.some_or] at h
    cases hlast : w.getLast? with
    | none => rwa [hlast] at h
    | some d => rwa [hlast] at h

theorem white (h : Respaced strict p new old) (hnew : ∀ c ∈ new, Text.isSpace c = true) :
    ∀ c ∈ old, Text.isSpace c = true := by
  induction h with
  | done _ hold => exact hold
  | sign _ hgap' _ _ _ ih =>
    obtain ⟨-, hrest⟩ := List.forall_mem_append.mp hnew
    obtain ⟨hc, hnew⟩ := List.forall_mem_cons.mp hrest
    exact List.forall_mem_append.mpr
      ⟨Text.white_of_blanks hgap', List.forall_mem_cons.mpr ⟨hc, ih hnew⟩⟩

theorem trim (h : Respaced strict p new old) {t white : Text}
    (hw : ∀ c ∈ white, Text.isSpace c = true) (e : new = t ++ white) :
    Respaced strict p t old := by
  induction h generalizing t with
  | done hnew hold => exact .done (fun c hc => hnew c (e ▸ List.mem_append_left white hc)) hold
  | @sign p c gap gap' new old hgap hgap' hc seam hrest ih =>
    have hnothing (ht : t ⊆ gap) (hnew : ∀ d ∈ c :: new, Text.isSpace d = true) :
        Respaced strict p t (gap' ++ c :: old) := by
      have hwhole := (Respaced.sign hgap hgap' hc seam hrest).white
        (List.forall_mem_append.mpr ⟨Text.white_of_blanks hgap, hnew⟩)
      exact .done (fun d hd => Text.isSpace_of_isBlank (hgap d (ht hd))) hwhole
    rcases List.append_eq_append_iff.mp e with ⟨u, rfl, hu⟩ | ⟨u, rfl, hu⟩
    · cases u with
      | nil =>
        exact hnothing (fun d hd => (List.mem_append.mp hd).resolve_right List.not_mem_nil)
          (hu ▸ hw)
      | cons d u =>
        obtain ⟨rfl, hnew⟩ := List.cons.inj hu
        exact .sign hgap hgap' hc seam (ih hnew)
    · exact hnothing (List.subset_append_left t u) fun d hd =>
        hw d (hu ▸ List.mem_append_right u hd)

theorem sign_inv (h : Respaced strict p (gap ++ c :: new) old)
    (hgap : ∀ c ∈ gap, Text.isBlank c = true) (hc : Text.isSpace c = false) : ∃ gap' old', old =
      gap' ++ c :: old' ∧ (∀ c ∈ gap', Text.isBlank c = true) ∧
      Seam strict p c gap gap' ∧ Respaced strict (some c) new old' := by
  have hblank : Text.isBlank c = false := Bool.eq_false_iff.mpr fun k =>
    Bool.noConfusion (hc.symm.trans (Text.isSpace_of_isBlank k))
  generalize e : gap ++ c :: new = text at h
  cases h with
  | done hnew _ =>
    rw [← e] at hnew
    have := hnew c (List.mem_append_right gap List.mem_cons_self)
    rw [hc] at this
    cases this
  | @sign _ d gap₁ gap' new₁ old hgap₁ hgap' hd seam hrest =>
    have hrests := congrArg (List.dropWhile Text.isBlank) e
    have hgaps := congrArg (List.takeWhile Text.isBlank) e
    rw [List.dropWhile_append_of_pos hgap, List.dropWhile_append_of_pos hgap₁,
      List.dropWhile_cons_of_neg (by simp [hblank]), List.dropWhile_cons_of_neg (by simp [hd]),
      List.cons.injEq] at hrests
    rw [List.takeWhile_append_of_pos hgap, List.takeWhile_append_of_pos hgap₁,
      List.takeWhile_cons_of_neg (by simp [hblank]), List.takeWhile_cons_of_neg (by simp [hd]),
      List.append_nil, List.append_nil] at hgaps
    obtain ⟨rfl, rfl⟩ := hrests
    subst hgaps
    exact ⟨gap', old, rfl, hgap', seam, hrest⟩

theorem word_inv (h : Respaced strict p (gap ++ (w ++ new)) old)
    (hgap : ∀ c ∈ gap, Text.isBlank c = true) (hw : ∀ c ∈ w, Text.isWord c = true) (hne : w ≠ []) :
    ∃ gap' old' d, old = gap' ++ (w ++ old') ∧
      (∀ c ∈ gap', Text.isBlank c = true) ∧ (p.all Text.isWord = true → (gap = [] ↔ gap' = [])) ∧
        (strict → p = some '.' → gap' = [] → gap = []) ∧ Text.isWord d = true ∧
        Respaced strict (some d) new old' := by
  induction w generalizing p gap old with
  | nil => exact absurd rfl hne
  | cons c w ih =>
    obtain ⟨hc, hw⟩ := List.forall_mem_cons.mp hw
    rw [List.cons_append] at h
    obtain ⟨gap', old₁, rfl, hgap', seam, hrest⟩ := h.sign_inv hgap (Text.not_space_of_word hc)
    by_cases hnil : w = []
    · subst hnil
      exact ⟨gap', old₁, c, rfl, hgap', seam.word hc, fun hs => seam.dot hs hc, hc, hrest⟩
    · have hnext : Respaced strict (some c) ([] ++ (w ++ new)) old₁ := hrest
      obtain ⟨gap₂, old', d, rfl, -, hjoined, -, hd, hbehind⟩ :=
        ih hnext (List.forall_mem_nil _) hw hnil
      obtain rfl := (hjoined hc).mp rfl
      exact ⟨gap', old', d, rfl, hgap', seam.word hc, fun hs => seam.dot hs hc, hd, hbehind⟩

theorem end_of_word (h : Respaced strict (some c) new old) (hc : Text.isWord c = true)
    (hnew : ∀ d, new.head? = some d → Text.isWord d = false) : ∀ d, old.head? = some d →
    Text.isWord d = false := by
  intro d hd
  refine Bool.eq_false_iff.mpr fun hword => ?_
  cases h with
  | done _ hold =>
    have := hold d (List.mem_of_head? hd)
    rw [Text.not_space_of_word hword] at this
    cases this
  | @sign _ x gap gap' new old hgap hgap' hx seam _ =>
    cases gap' with
    | nil =>
      obtain rfl : x = d := Option.some.inj hd
      obtain rfl := (seam.word hword hc).mpr rfl
      rw [hnew x rfl] at hword
      cases hword
    | cons y gap' =>
      obtain rfl : y = d := Option.some.inj hd
      rw [not_word_of_blank (hgap' y List.mem_cons_self)] at hword
      cases hword

theorem indent {i i' : Text} (h : Respaced strict none new old)
    (hi : ∀ c ∈ i, Text.isBlank c = true) (hi' : ∀ c ∈ i', Text.isBlank c = true) :
    Respaced strict (some ' ') (i ++ new) (i' ++ old) := by
  cases h with
  | done hnew hold =>
    exact .done (List.forall_mem_append.mpr ⟨Text.white_of_blanks hi, hnew⟩)
      (List.forall_mem_append.mpr ⟨Text.white_of_blanks hi', hold⟩)
  | sign hgap hgap' hc _ hrest =>
    rw [← List.append_assoc, ← List.append_assoc]
    refine .sign (List.forall_mem_append.mpr ⟨hi, hgap⟩) (List.forall_mem_append.mpr ⟨hi', hgap'⟩)
      hc ⟨fun _ hp => ?_, fun _ _ hp => ?_⟩
      hrest
    · exact absurd hp (by decide)
    · exact absurd hp (by decide)

/-- The blanks before a word and the sign before them, when no name goes on in front of the word. -/
theorem fresh_of_seam (seam : Seam strict p c gap gap') (hs : strict) (hc : Text.isWord c = true)
    (hgap' : ∀ c ∈ gap', Text.isBlank c = true) (h : Fresh p gap) : Fresh p gap' := by
  intro d hd
  cases hlast : gap'.getLast? with
  | some y =>
    rw [hlast, Option.some_or] at hd
    obtain rfl := Option.some.inj hd
    exact Bool.eq_false_iff.mpr fun k =>
      Bool.noConfusion
        ((not_blank_of_isWordOrDot k).1.symm.trans (hgap' y (List.mem_of_getLast? hlast)))
  | none =>
    obtain rfl := List.getLast?_eq_none_iff.mp hlast
    obtain rfl : p = some d := hd
    by_cases hnil : gap = []
    · exact h d (by rw [hnil]; rfl)
    · rw [Text.isWordOrDot, Bool.or_eq_false_iff, beq_eq_false_iff_ne]
      refine ⟨Bool.eq_false_iff.mpr fun hword => hnil ((seam.word hc hword).mpr rfl), ?_⟩
      rintro rfl
      exact hnil (seam.dot hs hc rfl rfl)

/-- What stands before a sign has the same signs in both texts, and no name goes on at its end in
one where none does in the other. -/
theorem split_inv {a b : Text} (h : Respaced strict p (a ++ c :: b) old)
    (hc : Text.isSpace c = false) : ∃ a' b', old = a' ++ c :: b' ∧
    (∀ d ∈ a', Text.isBlank d = false → d ∈ a) ∧
    (strict → Text.isWord c = true → Fresh p a → Fresh p a') ∧ Respaced strict (some c) b b' := by
  generalize e : a ++ c :: b = text at h
  induction h generalizing a with
  | done hnew _ =>
    rw [← e] at hnew
    have := hnew c (List.mem_append_right a List.mem_cons_self)
    rw [hc] at this
    cases this
  | @sign p d gap gap' new old hgap hgap' hd seam hrest ih =>
    have hfirst (hgap : a = gap) (hrest' : c :: b = d :: new) :
        ∃ a' b', gap' ++ d :: old = a' ++ c :: b' ∧
          (∀ x ∈ a', Text.isBlank x = false → x ∈ a) ∧
          (strict → Text.isWord c = true → Fresh p a → Fresh p a') ∧
          Respaced strict (some c) b b' := by
      obtain ⟨rfl, rfl⟩ := List.cons.inj hrest'
      subst hgap
      refine ⟨gap', old, rfl, fun x hx hblank => ?_,
        fun hs hword ha => fresh_of_seam seam hs hword hgap' ha, hrest⟩
      rw [hgap' x hx] at hblank
      cases hblank
    rcases List.append_eq_append_iff.mp e with ⟨u, rfl, hu⟩ | ⟨u, rfl, hu⟩
    · cases u with
      | nil => exact hfirst (List.append_nil a).symm hu
      | cons y u =>
        have hblank := hgap y (List.mem_append_right a List.mem_cons_self)
        obtain ⟨rfl, -⟩ := List.cons.inj hu
        rw [Text.isSpace_of_isBlank hblank] at hc
        cases hc
    · cases u with
      | nil => exact hfirst (List.append_nil gap) hu.symm
      | cons y u =>
        obtain ⟨rfl, rfl⟩ := List.cons.inj hu
        have hbehind (x u : Text) : (x ++ d :: u).getLast?.or p = u.getLast?.or (some d) := by
          rw [List.getLast?_append, List.getLast?_cons]
          cases u.getLast? <;> rfl
        obtain ⟨a', b', rfl, hsigns, hfresh, hb'⟩ := ih rfl
        refine ⟨gap' ++ d :: a', b', by rw [List.append_assoc]; rfl, fun x hx hblank => ?_,
          fun hs hword ha x hx => ?_, hb'⟩
        · rcases List.mem_append.mp hx with hx | hx
          · rw [hgap' x hx] at hblank
            cases hblank
          · rcases List.mem_cons.mp hx with rfl | hx
            · exact List.mem_append_right gap List.mem_cons_self
            · exact List.mem_append_right gap (List.mem_cons_of_mem d (hsigns x hx hblank))
        · exact hfresh hs hword (fun x hx => ha x ((hbehind gap u).trans hx)) x
            ((hbehind gap' a').symm.trans hx)

theorem varip (h : Respaced strict p new old) (hs : strict) (hp : Fresh p [])
    (hvarip : varipWord.occursIn new = true) :
    varipWord.occursIn old = true := by
  obtain ⟨a, b, rfl, ha, hb⟩ := varipWord_iff.mp hvarip
  have hfresh : Fresh p a := fun c hc => by
    cases hlast : a.getLast? with
    | none =>
      rw [hlast] at hc
      exact hp c hc
    | some d =>
      rw [hlast, Option.some_or] at hc
      exact ha c (by rw [hlast, Option.some_or, hc])
  obtain ⟨a', b', rfl, -, hfresh', hrest⟩ :=
    @split_inv _ _ 'v' _ a ("arip".toList ++ b) h (by decide)
  have ha' := hfresh' hs (by decide) hfresh
  obtain ⟨gap', old', d, rfl, -, hjoined, -, hd, hbehind⟩ :=
    @word_inv _ _ [] "arip".toList _ _ hrest
    (List.forall_mem_nil _) (by decide) (by decide)
  obtain rfl := (hjoined (by decide)).mp rfl
  refine varipWord_iff.mpr ⟨a', old', rfl, fun c hc => ha' c ?_, hbehind.end_of_word hd hb⟩
  rw [Option.or_none] at hc
  rw [hc, Option.some_or]

theorem exportHead (h : Respaced strict p new old)
    (hexport : PineTools.exportHead.readAt? new ≠ none) :
    PineTools.exportHead.readAt? old ≠ none := by
  have hkinds : ∀ w ∈ exportKinds.map String.toList, (∀ c ∈ w, Text.isWord c = true) ∧ w ≠ [] := by
    decide
  obtain ⟨indent, gap, w, rest, rfl, hblank, hne, hw, hrest⟩ := exportHead_iff.mp hexport
  obtain ⟨hindent, hgap⟩ := List.forall_mem_append.mp hblank
  obtain ⟨indent', old₁, d, rfl, hindent', -, -, hd, hkeyword⟩ :=
    h.word_inv hindent (by decide) (by decide)
  obtain ⟨gap', old₂, x, rfl, hgap', hjoined, -, hx, hkind⟩ :=
    hkeyword.word_inv hgap (hkinds w hw).1 (hkinds w hw).2
  exact exportHead_iff.mpr
    ⟨indent', gap', w, old₂, rfl, List.forall_mem_append.mpr ⟨hindent', hgap'⟩, fun e =>
    hne ((hjoined hd).mpr e), hw, hkind.end_of_word hx hrest⟩

theorem declaration (h : Respaced strict none new old)
    (hdeclaration : PineTools.declaration.readAt? new ≠ none) :
    PineTools.declaration.readAt? old ≠ none := by
  obtain ⟨w, gap, rest, rfl, hw, hgap⟩ := declaration_iff.mp hdeclaration
  obtain ⟨indent, old₁, d, rfl, -, hjoined, -, -, hname⟩ :=
    @word_inv _ _ [] w _ _ h (List.forall_mem_nil _)
    (declarationNames_word w hw).1 (declarationNames_word w hw).2
  obtain rfl := (hjoined rfl).mp rfl
  obtain ⟨gap', old₂, rfl, hgap', -, -⟩ := hname.sign_inv hgap (by decide)
  exact declaration_iff.mpr ⟨w, gap', old₂, rfl, hw, hgap'⟩

end Respaced

end PineTools
