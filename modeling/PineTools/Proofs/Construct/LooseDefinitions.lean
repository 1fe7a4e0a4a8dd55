import PineTools.Proofs.Construct.Respaced

/-! Function definitions up to their blanks. Before the angle bracket of a generic type, behind that
type and inside the arrow there may be any number of them, so that what defines a function in one
spacing of its signs is such a definition in every other. -/
namespace PineTools

open Reader

section Shapes

def isElement (c : Char) : Bool := Text.isWord c || Text.isBlank c || c == ',' || c == '.'

/-- A type and the blanks behind it. -/
inductive LooseType : Text → Prop
  | plain {w gap : Text} (known : w ∈ plainTypes.map String.toList) (nonempty : gap ≠ [])
      (blank : ∀ c ∈ gap, Text.isBlank c = true) : LooseType (w ++ gap)
  | generic {w gap elements behind : Text} (known : w ∈ genericTypes.map String.toList)
      (blank : ∀ c ∈ gap ++ behind, Text.isBlank c = true)
      (listed : ∀ c ∈ elements, isElement c = true) :
      LooseType (w ++ (gap ++ '<' :: (elements ++ '>' :: behind)))

/-- What stands between the indentation of a definition and its name. -/
inductive LooseFront : Text → Prop
  | untyped : LooseFront []
  | typed {type : Text} (loose : LooseType type) : LooseFront type
  | qualified {w gap type : Text} (known : w ∈ typeQualifiers.map String.toList)
      (nonempty : gap ≠ []) (blank : ∀ c ∈ gap, Text.isBlank c = true) (loose : LooseType type) :
      LooseFront (w ++ (gap ++ type))

/-- A name, parameters and an arrow, and anything behind them. -/
inductive LooseHead : Text → Prop
  | mk {name gap params close split rest : Text} (nonempty : name ≠ [])
      (word : ∀ c ∈ name, Text.isWord c = true) (free : name ∉ controlWords.map String.toList)
      (blank : ∀ c ∈ gap ++ (close ++ split), Text.isBlank c = true)
      (flat : ∀ c ∈ params, c ≠ '(' ∧ c ≠ ')') :
      LooseHead
        (name ++ (gap ++ '(' :: (params ++ ')' :: (close ++ '=' :: (split ++ '>' :: rest)))))

/-- A definition without the mark of methods. -/
def LooseDefinition (code : Text) : Prop :=
  ∃ indent front head, code = indent ++ (front ++ head) ∧ (∀ c ∈ indent, Text.isBlank c = true) ∧
    LooseFront front ∧ LooseHead head

variable {code front head w : Text}

theorem typeWords_word {words : List String}
    (h : words ∈ [plainTypes, genericTypes, typeQualifiers]) (hw : w ∈ words.map String.toList) :
    (∀ c ∈ w, Text.isWord c = true) ∧ w ≠ [] := by
  have hall : ∀ words ∈ [plainTypes, genericTypes, typeQualifiers],
      ∀ w ∈ words.map String.toList, (∀ c ∈ w, Text.isWord c = true) ∧ w ≠ [] := by decide
  exact hall words h w hw

theorem LooseHead.append (h : LooseHead code) (b : Text) : LooseHead (code ++ b) := by
  obtain ⟨nonempty, word, free, blank, flat⟩ := h
  simp only [List.append_assoc, List.cons_append]
  exact ⟨nonempty, word, free, blank, flat⟩

theorem LooseDefinition.append (h : LooseDefinition code) (b : Text) :
    LooseDefinition (code ++ b) := by
  obtain ⟨indent, front, head, rfl, hindent, hfront, hhead⟩ := h
  exact ⟨indent, front, head ++ b, by simp only [List.append_assoc], hindent, hfront,
    hhead.append b⟩

theorem LooseFront.begins (hfront : LooseFront front) (hhead : LooseHead head) :
    ∃ c rest, front ++ head = c :: rest ∧ Text.isWord c = true := by
  have hword {w rest : Text} (h : (∀ c ∈ w, Text.isWord c = true) ∧ w ≠ []) :
      ∃ c rest', w ++ rest = c :: rest' ∧ Text.isWord c = true := by
    obtain ⟨c, w, rfl⟩ := List.exists_cons_of_ne_nil h.2
    exact ⟨c, w ++ rest, rfl, h.1 c List.mem_cons_self⟩
  cases hfront with
  | untyped =>
    obtain ⟨nonempty, word⟩ := hhead
    rw [List.nil_append]
    exact hword ⟨word, nonempty⟩
  | typed loose =>
    cases loose with
    | plain known | generic known =>
      rw [List.append_assoc]
      exact hword (typeWords_word (by simp) known)
  | qualified known =>
    rw [List.append_assoc]
    exact hword (typeWords_word (by simp) known)

end Shapes

namespace Respaced

variable {strict : Prop} {p : Option Char} {gap type new old : Text}

/-- The name stands behind blanks in both texts, or behind none in either if there is a word before
it. -/
theorem looseHead (h : Respaced strict p (gap ++ new) old)
    (hgap : ∀ c ∈ gap, Text.isBlank c = true) (hnew : LooseHead new) :
    ∃ gap' old', old = gap' ++ old' ∧ (∀ c ∈ gap', Text.isBlank c = true) ∧
      (p.all Text.isWord = true → (gap = [] ↔ gap' = [])) ∧ LooseHead old' := by
  obtain ⟨nonempty, word, free, blank, flat⟩ := hnew
  obtain ⟨hinner, blank⟩ := List.forall_mem_append.mp blank
  obtain ⟨hclose, hsplit⟩ := List.forall_mem_append.mp blank
  obtain ⟨gap', old₁, d, rfl, hgap', hjoined, -, -, h₁⟩ := h.word_inv hgap word nonempty
  obtain ⟨inner', old₂, rfl, hinner', -, h₂⟩ := h₁.sign_inv hinner (by decide)
  obtain ⟨params', old₃, rfl, hparams, -, h₃⟩ := h₂.split_inv (by decide)
  obtain ⟨close', old₄, rfl, hclose', -, h₄⟩ := h₃.sign_inv hclose (by decide)
  obtain ⟨split', old₅, rfl, hsplit', -, -⟩ := h₄.sign_inv hsplit (by decide)
  refine ⟨gap', _, rfl, hgap', hjoined, nonempty, word, free, ?_, fun c hc => ?_⟩
  · exact List.forall_mem_append.mpr ⟨hinner', List.forall_mem_append.mpr ⟨hclose', hsplit'⟩⟩
  · cases hblank : Text.isBlank c with
    | false => exact flat c (hparams c hc hblank)
    | true => constructor <;> · rintro rfl; exact absurd hblank (by decide)

theorem looseType (h : Respaced strict p (gap ++ (type ++ new)) old)
    (hgap : ∀ c ∈ gap, Text.isBlank c = true) (htype : LooseType type) (hnew : LooseHead new) :
    ∃ gap' type' old', old = gap' ++ (type' ++ old') ∧ (∀ c ∈ gap', Text.isBlank c = true) ∧
      (p.all Text.isWord = true → (gap = [] ↔ gap' = [])) ∧ LooseType type' ∧ LooseHead old' := by
  cases htype with
  | @plain w inner known nonempty blank =>
    obtain ⟨word, hne⟩ := typeWords_word (by simp) known
    rw [List.append_assoc] at h
    obtain ⟨gap', old₁, d, rfl, hgap', hjoined, -, hd, h₁⟩ := h.word_inv hgap word hne
    obtain ⟨inner', old₂, rfl, hinner', hboth, hhead⟩ := h₁.looseHead blank hnew
    exact ⟨gap', w ++ inner', old₂, by rw [List.append_assoc], hgap', hjoined,
      .plain known (fun e => nonempty ((hboth hd).mpr e)) hinner', hhead⟩
  | @generic w inner elements behind known blank listed =>
    obtain ⟨word, hne⟩ := typeWords_word (by simp) known
    obtain ⟨hinner, hbehind⟩ := List.forall_mem_append.mp blank
    simp only [List.append_assoc, List.cons_append] at h
    obtain ⟨gap', old₁, d, rfl, hgap', hjoined, -, -, h₁⟩ := h.word_inv hgap word hne
    obtain ⟨inner', old₂, rfl, hinner', -, h₂⟩ := h₁.sign_inv hinner (by decide)
    obtain ⟨elements', old₃, rfl, helements, -, h₃⟩ := h₂.split_inv (by decide)
    obtain ⟨behind', old₄, rfl, hbehind', -, hhead⟩ := h₃.looseHead hbehind hnew
    refine ⟨gap', w ++ (inner' ++ '<' :: (elements' ++ '>' :: behind')), old₄, ?_, hgap', hjoined,
      .generic known (List.forall_mem_append.mpr ⟨hinner', hbehind'⟩) fun c hc => ?_, hhead⟩
    · simp only [List.append_assoc, List.cons_append]
    · cases hblank : Text.isBlank c with
      | false => exact listed c (helements c hc hblank)
      | true => rw [isElement, hblank, Bool.or_true, Bool.true_or, Bool.true_or]

/-- The spacing of the signs decides neither whether a line is a definition up to its blanks nor
which. -/
theorem looseDefinition (h : Respaced strict p new old) (hnew : LooseDefinition new) :
    LooseDefinition old := by
  obtain ⟨indent, front, head, rfl, hindent, hfront, hhead⟩ := hnew
  cases hfront with
  | untyped =>
    obtain ⟨indent', head', rfl, hindent', -, hhead'⟩ := h.looseHead hindent hhead
    exact ⟨indent', [], head', rfl, hindent', .untyped, hhead'⟩
  | typed loose =>
    obtain ⟨indent', type', head', rfl, hindent', -, hloose', hhead'⟩ :=
      h.looseType hindent loose hhead
    exact ⟨indent', type', head', rfl, hindent', .typed hloose', hhead'⟩
  | @qualified w gap type known nonempty blank loose =>
    obtain ⟨word, hne⟩ := typeWords_word (by simp) known
    simp only [List.append_assoc] at h
    obtain ⟨indent', old₁, d, rfl, hindent', -, -, hd, h₁⟩ := h.word_inv hindent word hne
    obtain ⟨gap', type', head', rfl, hgap', hboth, hloose', hhead'⟩ :=
      h₁.looseType blank loose hhead
    exact ⟨indent', w ++ (gap' ++ type'), head', by simp only [List.append_assoc], hindent',
      .qualified known (fun e => nonempty ((hboth hd).mpr e)) hgap' hloose', hhead'⟩

end Respaced

section Readings

variable {gs rest : Text}

theorem ends_of_gap {gap : Text} (hne : gap ≠ []) (hgap : ∀ c ∈ gap, Text.isBlank c = true)
    (b : Text) : Ends (gap ++ b) := by
  obtain ⟨y, gap, rfl⟩ := List.exists_cons_of_ne_nil hne
  exact fun c hc => Option.some.inj hc ▸ not_word_of_blank (hgap y List.mem_cons_self)

theorem ends_of_blanks {gap : Text} (hgap : ∀ c ∈ gap, Text.isBlank c = true) {x : Char}
    (hx : Text.isWord x = false) (b : Text) : Ends (gap ++ x :: b) := by
  by_cases hne : gap = []
  · subst hne
    exact fun c hc => Option.some.inj hc ▸ hx
  · exact ends_of_gap hne hgap (x :: b)

theorem looseHead_of_read {v : Text × Text} (h : definitionFromName gs = some (v, rest)) :
    LooseHead gs := by
  obtain ⟨_, rest₁, hcontrol, h⟩ := bind_eq_some.mp h
  obtain ⟨hnone, e⟩ := notAhead_eq_some.mp hcontrol
  cases e
  obtain ⟨name, rest₂, hname, h⟩ := bind_eq_some.mp h
  obtain ⟨gap, rest₃, hgap, h⟩ := discard_bind_eq_some.mp h
  obtain ⟨_, rest₄, hopen, h⟩ := discard_bind_eq_some.mp h
  obtain ⟨params, rest₅, hparams, h⟩ := bind_eq_some.mp h
  obtain ⟨_, rest₆, hclose, h⟩ := discard_bind_eq_some.mp h
  obtain ⟨close, rest₇, hblanks, h⟩ := discard_bind_eq_some.mp h
  obtain ⟨arrow, rest₈, harrow, -⟩ := discard_bind_eq_some.mp h
  obtain ⟨rfl, hne, hword⟩ := name_eq_some hname
  obtain ⟨rfl, isGap⟩ := blanks_eq_some hgap
  obtain ⟨rfl, hparen⟩ := one_eq_some.mp hopen
  obtain ⟨rfl, hflat⟩ := takes_run _ hparams
  obtain ⟨rfl, hparen'⟩ := one_eq_some.mp hclose
  obtain ⟨rfl, isClose⟩ := blanks_eq_some hblanks
  obtain ⟨rfl, hseen⟩ := exactly_eq_some.mp harrow
  obtain rfl := beq_iff_eq.mp hparen
  obtain rfl := beq_iff_eq.mp hparen'
  rw [seenText_text] at hseen
  subst hseen
  refine @LooseHead.mk name gap params close [] rest₈ hne hword (fun hmem => ?_) ?_ fun c hc => ?_
  · -- A control word would have been read in place of the name.
    obtain ⟨w, hw, rfl⟩ := List.mem_map.mp hmem
    have hread := firstOf_eq_none.mp hnone _ (List.mem_map_of_mem hw)
    rw [discard_bind_eq_some.mpr ⟨_, _, word_append w _, endOf_eq_some.mpr
      ⟨ends_of_blanks isGap (by decide) _, rfl⟩⟩] at hread
    cases hread
  · exact List.forall_mem_append.mpr ⟨isGap, by rwa [List.append_nil]⟩
  · have hc := hflat c hc
    simp only [Bool.and_eq_true, bne_iff_ne] at hc
    exact hc.1

theorem known_of_showsOneOf {w : Text} {words : List String} (h : showsOneOf w words = true) :
    w ∈ words.map String.toList := by
  obtain ⟨u, hu, hshows⟩ := List.any_eq_true.mp h
  exact List.mem_map.mpr ⟨u, hu, (beq_iff_eq.mp hshows).symm.trans (seenText_text w)⟩

theorem looseType_of_read {v gap : Text} (h : unqualifiedType gs = some (v, gap ++ rest))
    (hne : gap ≠ []) (hgap : ∀ c ∈ gap, Text.isBlank c = true) :
    ∃ type, gs = type ++ rest ∧ LooseType type := by
  obtain ⟨first, rest₁, hfirst, hkind⟩ := bind_eq_some.mp h
  obtain ⟨rfl, -⟩ := takes_run1 _ hfirst
  split at hkind
  · next hplain =>
    cases pure_eq_some.mp hkind
    exact ⟨v ++ gap, (List.append_assoc ..).symm,
      .plain (known_of_showsOneOf hplain) hne hgap⟩
  split at hkind
  · next hgeneric =>
    obtain ⟨angles, rest₂, hangles, hkind⟩ := bind_eq_some.mp hkind
    cases pure_eq_some.mp hkind
    obtain ⟨opener, rest₃, tail, hopener, htail, rfl⟩ := inTurn_cons_eq_some.mp hangles
    obtain ⟨elements, rest₄, closer, helements, hcloser, rfl⟩ := inTurn_cons_eq_some.mp htail
    obtain ⟨rfl, hopens⟩ := exactly_eq_some.mp hopener
    obtain ⟨rfl, hlisted⟩ := takes_run1 _ helements
    obtain ⟨rfl, hcloses⟩ := exactly_eq_some.mp (inTurn_singleton_eq_some.mp hcloser)
    rw [seenText_text] at hopens hcloses
    subst hopens hcloses
    refine ⟨first ++ ([] ++ '<' :: (elements ++ '>' :: gap)), ?_,
      .generic (known_of_showsOneOf hgeneric) hgap hlisted⟩
    simp
  · cases hkind

theorem looseFront_of_read {v : Text} (h : leadingType gs = some (v, rest)) :
    ∃ front, gs = front ++ rest ∧ LooseFront front := by
  obtain ⟨name, rest₁, hname, h⟩ := bind_eq_some.mp h
  obtain ⟨gap, rest₂, hgap, h⟩ := discard_bind_eq_some.mp h
  cases pure_eq_some.mp h
  have hne := (run1_eq_some.mp hgap).1
  obtain ⟨rfl, isGap⟩ := takes_run1 _ hgap
  rcases orElse_eq_some.mp hname with hqualified | ⟨-, hplain⟩
  · obtain ⟨qualifier, rest₃, tail, hqualifier, htail, rfl⟩ := inTurn_cons_eq_some.mp hqualified
    obtain ⟨inner, rest₄, type, hinner, htype, rfl⟩ := inTurn_cons_eq_some.mp htail
    obtain ⟨word, rest₅, hword, hguard⟩ := bind_eq_some.mp hqualifier
    obtain ⟨_, _, hlisted, e⟩ := bind_eq_some.mp hguard
    cases pure_eq_some.mp e
    obtain ⟨hknown, e⟩ := guard_eq_some.mp hlisted
    cases e
    have hne' := (run1_eq_some.mp hinner).1
    obtain ⟨rfl, -⟩ := takes_run1 _ hword
    obtain ⟨rfl, isInner⟩ := takes_run1 _ hinner
    obtain ⟨type, rfl, hloose⟩ :=
      looseType_of_read (inTurn_singleton_eq_some.mp htype) hne isGap
    exact ⟨qualifier ++ (inner ++ type), by simp only [List.append_assoc],
      .qualified (known_of_showsOneOf hknown) hne' isInner hloose⟩
  · obtain ⟨type, rfl, hloose⟩ := looseType_of_read hplain hne isGap
    exact ⟨type, rfl, .typed hloose⟩

/-- What is read as a definition without the mark of methods is one up to its blanks. -/
theorem looseDefinition_of_read {d : FunctionDefinition Char}
    (h : functionDefinition.readAt? gs = some d) (hmethod : d.method = none) :
    LooseDefinition gs := by
  obtain ⟨rest, h⟩ := readAt?_eq_some h
  obtain ⟨body, typed, e, hindent, -, hplain⟩ := functionDefinition_eq_some h
  rw [hmethod] at e hplain
  cases typed with
  | true =>
    obtain ⟨type, rest₁, htype, hplain⟩ := bind_eq_some.mp hplain
    obtain ⟨v, rest₂, hname, -⟩ := bind_eq_some.mp hplain
    obtain ⟨front, rfl, hfront⟩ := looseFront_of_read htype
    exact ⟨d.indent, front, rest₁, e, hindent, hfront, looseHead_of_read hname⟩
  | false =>
    obtain ⟨v, rest₁, hname, -⟩ := bind_eq_some.mp hplain
    exact ⟨d.indent, [], body, e, hindent, .untyped, looseHead_of_read hname⟩

/-- A definition with the mark of methods is none up to its blanks. -/
theorem LooseDefinition.method_eq_none (h : LooseDefinition gs) {d : FunctionDefinition Char}
    (hread : functionDefinition.readAt? gs = some d) : d.method = none := by
  refine Option.eq_none_iff_forall_ne_some.mpr fun m hm => ?_
  obtain ⟨rest, hread⟩ := readAt?_eq_some hread
  obtain ⟨body, typed, e, hblank, hmark, hplain⟩ := functionDefinition_eq_some hread
  obtain ⟨-, keyword, gap, rfl, hseen, hne, hgap⟩ := methodMark_eq_some (hmark m hm)
  obtain ⟨-, -, -, x, body, rfl, hx⟩ := plainDefinition_eq_some hplain
  obtain ⟨indent, front, head, rfl, hindent, hfront, hhead⟩ := h
  rw [seenText_text] at hseen
  subst hseen
  rw [hm, Option.getD_some, List.append_assoc] at e
  obtain ⟨c, more, hbegins, hc⟩ := hfront.begins hhead
  have hc : Text.isBlank c = false := not_blank_of_word hc
  obtain ⟨-, e⟩ := Text.run_append_inj hindent hblank (by rw [hbegins]; exact hc) rfl e
  -- So the first word of the definition is the mark, and what stands behind it is a word.
  have hcut {w b : Text} (hw : ∀ c ∈ w, Text.isWord c = true) (hb : Ends b)
      (e : w ++ b = "method".toList ++ (gap ++ x :: body)) :
      w = "method".toList ∧ b = gap ++ x :: body := by
    have hany {b : Text} (hb : Ends b) : b.head?.any Text.isWord = false := by
      cases hhead : b.head? with
      | none => rfl
      | some c => exact hb c hhead
    exact Text.run_append_inj hw (by decide) (hany hb) (hany (ends_of_gap hne hgap _)) e
  cases hfront with
  | untyped =>
    obtain ⟨nonempty, word, free, blank, flat⟩ := hhead
    obtain ⟨hinner, -⟩ := List.forall_mem_append.mp blank
    obtain ⟨-, e⟩ := hcut word (ends_of_blanks hinner (by decide) _) e
    have hstop : (x :: body).head?.any Text.isBlank = false := not_blank_of_word hx
    obtain ⟨-, e⟩ := Text.run_append_inj hinner hgap rfl hstop e
    obtain ⟨rfl, -⟩ := List.cons.inj e
    exact absurd hx (by decide)
  | typed loose =>
    cases loose with
    | plain known nonempty blank =>
      rw [List.append_assoc] at e
      obtain ⟨rfl, -⟩ :=
        hcut (typeWords_word (by simp) known).1 (ends_of_gap nonempty blank _) e
      exact absurd known (by decide)
    | generic known blank listed =>
      simp only [List.append_assoc, List.cons_append] at e
      obtain ⟨hinner, -⟩ := List.forall_mem_append.mp blank
      obtain ⟨rfl, -⟩ :=
        hcut (typeWords_word (by simp) known).1 (ends_of_blanks hinner (by decide) _) e
      exact absurd known (by decide)
  | qualified known nonempty blank loose =>
    simp only [List.append_assoc] at e
    obtain ⟨rfl, -⟩ := hcut (typeWords_word (by simp) known).1 (ends_of_gap nonempty blank _) e
    exact absurd known (by decide)

end Readings
end PineTools
