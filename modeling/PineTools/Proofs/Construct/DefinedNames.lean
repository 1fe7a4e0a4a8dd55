import PineTools.Proofs.Construct.CalledNames
import PineTools.Proofs.Construct.Definitions

namespace PineTools

open Reader

variable {α β γ : Type} [Glyph α]

namespace Reader

variable {c : Char}

theorem HaltsAt.not_taken {r : Reader α β} (h : HaltsAt c r) {taken rest : List α} {v : β}
    (happ : r (taken ++ rest) = some (v, rest)) : ∀ g ∈ taken, Glyph.seen g ≠ c := by
  intro g hg e
  obtain ⟨a, b, rfl⟩ := List.append_of_mem hg
  rw [List.append_assoc, List.cons_append, h a g (b ++ rest) e] at happ
  obtain ⟨p, -, hp⟩ := Option.map_eq_some_iff.mp happ
  have hlen := congrArg List.length (congrArg Prod.snd hp)
  simp only [List.length_append, List.length_cons] at hlen
  omega

/-- The result does not depend on what stands behind the character, as long as that meets the
demand. -/
def ReadsUpTo (c : Char) (demand : List α → Prop) (r : Reader α β) (result : β → γ) : Prop :=
  ∀ ⦃gs : List α⦄ ⦃g : α⦄ ⦃rest rest' : List α⦄, Glyph.seen g = c → (∀ x ∈ gs, Glyph.seen x ≠ c) →
    demand rest → demand rest' →
      (r (gs ++ g :: rest)).map (result ∘ Prod.fst) = (r (gs ++ g :: rest')).map (result ∘ Prod.fst)

variable {demand : List α → Prop}

theorem HaltsAt.bind_readsUpTo {δ : Type} {x : Reader α β} (hx : HaltsAt c x) (htrims : Trims x)
    {f : β → Reader α γ} {result : γ → δ} (hf : ∀ b, ReadsUpTo c demand (f b) result) :
    ReadsUpTo c demand (x >>= f) result := by
  intro gs g rest rest' hg hgs hdemand hdemand'
  change ((x (gs ++ g :: rest)).bind fun p => f p.1 p.2).map _ =
    ((x (gs ++ g :: rest')).bind fun p => f p.1 p.2).map _
  rw [hx gs g rest hg, hx gs g rest' hg]
  cases hread : x gs with
  | none => rfl
  | some p =>
    obtain ⟨taken, htaken⟩ := htrims hread
    refine hf p.1 hg (fun y hy => hgs y ?_) hdemand hdemand'
    rw [htaken]
    exact List.mem_append_right taken hy

theorem ReadsUpTo.bind_pure {δ : Type} {r : Reader α β} {result : β → δ}
    (h : ReadsUpTo c demand r result) {f : β → γ} {result' : γ → δ}
    (hf : ∀ b, result' (f b) = result b) :
    ReadsUpTo c demand (r >>= fun b => pure (f b)) result' := by
  have hmap (gs : List α) : ((r >>= fun b => pure (f b)) gs).map (result' ∘ Prod.fst) =
      (r gs).map (result ∘ Prod.fst) := by
    change ((r gs).bind fun p => some (f p.1, p.2)).map _ = _
    cases r gs with
    | none => rfl
    | some p => exact congrArg some (hf p.1)
  intro gs g rest rest' hg hgs hdemand hdemand'
  rw [hmap, hmap]
  exact h hg hgs hdemand hdemand'

theorem readsUpTo_firstOf {rs : List (Reader α β)} {result : β → γ}
    (h : ∀ r ∈ rs, ReadsUpTo c demand r result) : ReadsUpTo c demand (firstOf rs) result := by
  induction rs with
  | nil => exact fun _ _ _ _ _ _ _ _ => rfl
  | cons r rs ih =>
    obtain ⟨hr, hrs⟩ := List.forall_mem_cons.mp h
    intro gs g rest rest' hg hgs hdemand hdemand'
    have hfirst := hr hg hgs hdemand hdemand'
    have hothers := ih hrs hg hgs hdemand hdemand'
    have hor (gs : List α) : firstOf (r :: rs) gs = (r gs).or (firstOf rs gs) := by
      change (r gs <|> firstOf rs gs) = _
      rw [Option.orElse_eq_orElse, Option.orElse_eq_or]
    rw [hor, hor, Option.map_or, Option.map_or, hfirst, hothers]

/-- Takes the character, and gives what is read behind it to a function. -/
def readBehind (c : Char) (r : Reader α β) (f : β → γ) : Reader α γ := do
  discard <| one (· == c)
  let b ← r
  return f b

theorem readsUpTo_readBehind {δ : Type} {r : Reader α β}
    (hr : ∀ gs, demand gs → (r gs).isSome = true) {f : β → γ} {result : γ → δ} {d : δ}
    (hf : ∀ b, result (f b) = d) :
    ReadsUpTo c demand (readBehind c r f) result := by
  intro gs g rest rest' hg hgs hrest hrest'
  cases gs with
  | cons x gs =>
    have hnone (gs : List α) : readBehind c r f (x :: gs) = none := by
      refine Option.eq_none_iff_forall_ne_some.mpr fun p h => ?_
      obtain ⟨y, left, hy, -⟩ := discard_bind_eq_some.mp h
      obtain ⟨e, hc⟩ := one_eq_some.mp hy
      cases e
      exact hgs x List.mem_cons_self (beq_iff_eq.mp hc)
    rw [List.cons_append, List.cons_append, hnone, hnone]
  | nil =>
    have hread {rest : List α} (hrest : demand rest) :
        (readBehind c r f (g :: rest)).map (result ∘ Prod.fst) = some d := by
      obtain ⟨⟨b, left⟩, hb⟩ := Option.isSome_iff_exists.mp (hr rest hrest)
      have hbehind : readBehind c r f (g :: rest) = some (f b, left) :=
        discard_bind_eq_some.mpr ⟨g, rest, one_eq_some.mpr ⟨rfl, beq_iff_eq.mpr hg⟩,
          bind_eq_some.mpr ⟨b, left, hb, rfl⟩⟩
      rw [hbehind]
      exact congrArg some (hf b)
    rw [List.nil_append, List.nil_append, hread hrest, hread hrest']

end Reader

/-- The parameters of a definition, behind the opening parenthesis, up to the arrow. -/
def parameterList : Reader α (List α) := do
  let params ← run fun c => c != '(' && c != ')' && c != '\n'
  discard <| one (· == ')')
  discard blanks
  discard <| word "=>"
  return params

theorem definitionFromName_eq : (definitionFromName : Reader α (List α × List α)) = (do
    notControlWord
    let name ← name
    discard blanks
    readBehind '(' parameterList fun params => (name, params)) := by
  simp only [definitionFromName, notControlWord, readBehind, parameterList, bind_assoc, pure_bind]

theorem parameterList_isSome {gs : List α} : (parameterList gs).isSome = true ↔
    ∃ params close gap arrow rest, gs = params ++ close :: (gap ++ (arrow ++ rest)) ∧
      (∀ g ∈ params, (Glyph.seen g != '(' && Glyph.seen g != ')' && Glyph.seen g != '\n') = true) ∧
      Glyph.seen close = ')' ∧ (∀ g ∈ gap, Text.isBlank (Glyph.seen g) = true) ∧
      seenText arrow = "=>".toList := by
  rw [Option.isSome_iff_exists]
  constructor
  · rintro ⟨⟨params, rest⟩, h⟩
    obtain ⟨params, rest₁, hparams, h⟩ := bind_eq_some.mp h
    obtain ⟨close, rest₂, hclose, h⟩ := discard_bind_eq_some.mp h
    obtain ⟨gap, rest₃, hgap, h⟩ := discard_bind_eq_some.mp h
    obtain ⟨arrow, rest₄, harrow, -⟩ := discard_bind_eq_some.mp h
    obtain ⟨rfl, isParams⟩ := takes_run _ hparams
    obtain ⟨rfl, isClose⟩ := one_eq_some.mp hclose
    obtain ⟨rfl, isGap⟩ := takes_run _ hgap
    obtain ⟨rfl, isArrow⟩ := exactly_eq_some.mp harrow
    exact ⟨params, close, gap, arrow, rest₄, rfl, isParams, beq_iff_eq.mp isClose, isGap, isArrow⟩
  · rintro ⟨params, close, gap, arrow, rest, rfl, isParams, isClose, isGap, isArrow⟩
    have hblank : ∀ g, (arrow ++ rest).head? = some g → Text.isBlank (Glyph.seen g) = false := by
      intro g hg
      cases arrow with
      | nil => cases isArrow
      | cons a arrow =>
        cases hg
        rw [(List.cons.inj isArrow).1]
        decide
    refine ⟨(params, rest), bind_eq_some.mpr ⟨params, _, run_append isParams fun g hg => ?_, ?_⟩⟩
    · cases hg
      rw [isClose]
      decide
    refine discard_bind_eq_some.mpr
      ⟨close, gap ++ (arrow ++ rest), one_eq_some.mpr ⟨rfl, beq_iff_eq.mpr isClose⟩, ?_⟩
    refine discard_bind_eq_some.mpr ⟨gap, arrow ++ rest, run_append isGap hblank, ?_⟩
    exact discard_bind_eq_some.mpr ⟨arrow, rest, exactly_eq_some.mpr ⟨rfl, isArrow⟩, rfl⟩

theorem parameterList_mapCalls {f : List α → List α} (hf : f [] = []) {gs : List α}
    (h : (parameterList gs).isSome = true) : (parameterList (mapCalls f gs)).isSome = true := by
  obtain ⟨params, close, gap, arrow, rest, rfl, isParams, isClose, isGap, isArrow⟩ :=
    parameterList_isSome.mp h
  have hdivides : Divides close := by
    rw [Divides, inName, isClose]
    decide
  have hclosed : ∀ g ∈ params, Glyph.seen g ≠ '(' := by
    intro g hg e
    have := isParams g hg
    rw [e] at this
    exact absurd this (by decide)
  have harrow : ∀ g ∈ arrow, inName g = false := by
    intro g hg
    have hmem : Glyph.seen g ∈ "=>".toList := isArrow ▸ List.mem_map_of_mem hg
    have hall : ∀ c ∈ "=>".toList, Text.isWordOrDot c = false := by decide
    exact hall _ hmem
  rw [mapCalls_append_divider hdivides, mapCalls_closed hclosed,
    mapCalls_append_of_not hf fun g hg => not_inName_of_blank (isGap g hg),
    mapCalls_append_of_not hf harrow]
  exact parameterList_isSome.mpr
    ⟨params, close, gap, arrow, mapCalls f rest, rfl, isParams, isClose, isGap, isArrow⟩

/-- What a definition is read for: parameters follow the opening parenthesis. -/
def HasParameters (gs : List α) : Prop := (parameterList gs).isSome = true

theorem readsUpTo_definitionFromName :
    ReadsUpTo '(' HasParameters (definitionFromName : Reader α (List α × List α)) Prod.fst := by
  rw [definitionFromName_eq]
  have hblanks : HaltsAt '(' (discard blanks : Reader α Unit) :=
    (haltsAt_run (by decide)).discard
  refine (haltsAt_notControlWord rfl).bind_readsUpTo (trims_notAhead _) fun _ => ?_
  refine (haltsAt_name (by decide) (by decide)).bind_readsUpTo eats_name.trims fun name => ?_
  refine hblanks.bind_readsUpTo (trims_run _).discard fun _ => ?_
  exact readsUpTo_readBehind (fun _ h => h) fun _ => rfl

theorem readsUpTo_plainDefinition (indent : List α) (method : Option (List α)) (typed : Bool) :
    ReadsUpTo '(' HasParameters (plainDefinition indent method typed) FunctionDefinition.name := by
  cases typed with
  | true =>
    exact (haltsAt_leadingType rfl).bind_readsUpTo trims_leadingType fun _ =>
      readsUpTo_definitionFromName.bind_pure fun _ => rfl
  | false => exact readsUpTo_definitionFromName.bind_pure fun _ => rfl

/-- Which name a line defines is told in front of the parameters. -/
theorem readsUpTo_functionDefinition : ReadsUpTo '(' HasParameters
    (functionDefinition none : Reader α (FunctionDefinition α)) FunctionDefinition.name := by
  rw [functionDefinition_none_eq]
  refine (haltsAt_run (by decide)).bind_readsUpTo (trims_run _) fun indent => ?_
  refine readsUpTo_firstOf fun r hr => ?_
  have hmethod (typed : Bool) : ReadsUpTo '(' HasParameters
      (methodMark >>= fun m => plainDefinition indent (some m) typed) FunctionDefinition.name :=
    (haltsAt_methodMark rfl).bind_readsUpTo trims_methodMark fun _ =>
      readsUpTo_plainDefinition indent _ typed
  simp only [List.mem_cons, List.not_mem_nil, or_false] at hr
  rcases hr with rfl | rfl | rfl | rfl
  · exact hmethod true
  · exact hmethod false
  · exact readsUpTo_plainDefinition indent none true
  · exact readsUpTo_plainDefinition indent none false

/-- What stands in front of a name: no call opens in it, and no name goes on behind it. -/
structure LeadsIn (front : List α) : Prop where
  closed : ∀ g ∈ front, Glyph.seen g ≠ '('
  last : ∀ g ∈ front.getLast?, inName g = false

theorem leadsIn_blank {gap : List α} (h : ∀ g ∈ gap, Text.isBlank (Glyph.seen g) = true) :
    LeadsIn gap := by
  refine ⟨fun g hg e => ?_, fun g hg => not_inName_of_blank (h g (List.mem_of_getLast? hg))⟩
  have := h g hg
  rw [e] at this
  exact absurd this (by decide)

theorem LeadsIn.append {a b : List α} (ha : LeadsIn a) (hb : LeadsIn b) : LeadsIn (a ++ b) := by
  refine ⟨List.forall_mem_append.mpr ⟨ha.closed, hb.closed⟩, fun g hg => ?_⟩
  rw [List.getLast?_append, Option.mem_def, Option.or_eq_some_iff] at hg
  rcases hg with hg | ⟨-, hg⟩
  · exact hb.last g hg
  · exact ha.last g hg

/-- Blanks part what stands in front from the name. -/
theorem leadsIn_append_blanks {a gap : List α} (ha : ∀ g ∈ a ++ gap, Glyph.seen g ≠ '(')
    (hne : gap ≠ []) (hgap : ∀ g ∈ gap, Text.isBlank (Glyph.seen g) = true) :
    LeadsIn (a ++ gap) := by
  refine ⟨ha, fun g hg => not_inName_of_blank (hgap g (List.mem_of_getLast? ?_))⟩
  rwa [List.getLast?_append, Option.or_of_isSome (List.getLast?_isSome.mpr hne)] at hg

theorem leadsIn_methodMark {m rest : List α} (h : methodMark (m ++ rest) = some (m, rest)) :
    LeadsIn m := by
  have hclosed := (haltsAt_methodMark (c := '(') rfl).not_taken h
  obtain ⟨-, keyword, gap, rfl, -, hne, hgap⟩ := methodMark_eq_some h
  exact leadsIn_append_blanks hclosed hne hgap

theorem leadingType_parts {gs type rest : List α} (h : leadingType gs = some (type, rest)) :
    ∃ front, gs = front ++ rest ∧ LeadsIn front := by
  obtain ⟨front, rfl⟩ := trims_leadingType h
  have hclosed := (haltsAt_leadingType (c := '(') rfl).not_taken h
  obtain ⟨_, rest₁, htype, h⟩ := bind_eq_some.mp h
  obtain ⟨gap, rest₂, hgap, h⟩ := discard_bind_eq_some.mp h
  cases pure_eq_some.mp h
  obtain ⟨rfl, isGap⟩ := takes_run1 _ hgap
  obtain ⟨taken, e⟩ := trims_typeName htype
  rw [← List.append_assoc, List.append_left_inj] at e
  rw [e] at hclosed ⊢
  exact ⟨_, rfl, leadsIn_append_blanks hclosed (run1_eq_some.mp hgap).1 isGap⟩

/-- A defined name, with its parameters behind it. -/
structure Heads (name gs : List α) : Prop where
  ne : name ≠ []
  inName : ∀ g ∈ name, inName g = true
  parts : ∃ gap p behind, gs = name ++ (gap ++ p :: behind) ∧
    (∀ g ∈ gap, Text.isBlank (Glyph.seen g) = true) ∧ Glyph.seen p = '(' ∧ HasParameters behind

theorem heads_of_definitionFromName {gs rest : List α} {v : List α × List α}
    (h : definitionFromName gs = some (v, rest)) : Heads v.1 gs := by
  rw [definitionFromName_eq] at h
  obtain ⟨_, rest₁, hcontrol, h⟩ := bind_eq_some.mp h
  obtain ⟨-, e⟩ := notAhead_eq_some.mp hcontrol
  cases e
  obtain ⟨name, rest₂, hname, h⟩ := bind_eq_some.mp h
  obtain ⟨gap, rest₃, hgap, h⟩ := discard_bind_eq_some.mp h
  obtain ⟨p, behind, hopen, h⟩ := discard_bind_eq_some.mp h
  obtain ⟨params, rest₄, hparams, h⟩ := bind_eq_some.mp h
  cases pure_eq_some.mp h
  have hword : Takes Text.isWord (PineTools.Reader.name : Reader α (List α)) :=
    takes_cons (takes_run _) fun _ => Text.isWord_of_isNameStart
  obtain ⟨rfl, isName⟩ := hword hname
  obtain ⟨rfl, isGap⟩ := takes_run _ hgap
  obtain ⟨rfl, isOpen⟩ := one_eq_some.mp hopen
  refine ⟨?_, fun g hg => Bool.or_eq_true_iff.mpr (.inl (isName g hg)), gap, p, behind, rfl, isGap,
    beq_iff_eq.mp isOpen, Option.isSome_iff_exists.mpr ⟨_, hparams⟩⟩
  obtain ⟨first, rest₅, -, hname⟩ := bind_eq_some.mp hname
  obtain ⟨more, rest₆, -, hname⟩ := bind_eq_some.mp hname
  cases pure_eq_some.mp hname
  exact List.cons_ne_nil first more

theorem plainDefinition_parts {indent : List α} {method : Option (List α)} {typed : Bool}
    {gs rest : List α} {v : FunctionDefinition α}
    (h : plainDefinition indent method typed gs = some (v, rest)) :
    ∃ front behind, gs = front ++ behind ∧ LeadsIn front ∧ Heads v.name behind := by
  cases typed with
  | true =>
    obtain ⟨type, rest₁, htype, h⟩ := bind_eq_some.mp h
    obtain ⟨⟨name, params⟩, rest₂, hname, h⟩ := bind_eq_some.mp h
    cases pure_eq_some.mp h
    obtain ⟨taken, rfl, htaken⟩ := leadingType_parts htype
    exact ⟨taken, rest₁, rfl, htaken, heads_of_definitionFromName hname⟩
  | false =>
    obtain ⟨⟨name, params⟩, rest₂, hname, h⟩ := bind_eq_some.mp h
    cases pure_eq_some.mp h
    exact ⟨[], gs, rfl, leadsIn_blank (List.forall_mem_nil _), heads_of_definitionFromName hname⟩

theorem functionDefinition_parts {gs rest : List α} {v : FunctionDefinition α}
    (h : functionDefinition none gs = some (v, rest)) :
    ∃ front behind, gs = front ++ behind ∧ LeadsIn front ∧ Heads v.name behind := by
  obtain ⟨body, typed, rfl, hindent, hmark, hplain⟩ := functionDefinition_eq_some h
  have hmethod : LeadsIn (v.method.getD []) := by
    cases hm : v.method with
    | none => exact leadsIn_blank (List.forall_mem_nil _)
    | some m => exact leadsIn_methodMark (hmark m hm)
  obtain ⟨taken, behind, rfl, htaken, hheads⟩ := plainDefinition_parts hplain
  exact ⟨v.indent ++ v.method.getD [] ++ taken, behind, by simp only [List.append_assoc],
    ((leadsIn_blank hindent).append hmethod).append htaken, hheads⟩

theorem functionDefinition_mapCalls {f : List α → List α} (hf : f [] = []) {gs rest : List α}
    {v : FunctionDefinition α} (h : functionDefinition none gs = some (v, rest))
    (hkept : f v.name = v.name) :
    ∃ v' rest', functionDefinition none (mapCalls f gs) = some (v', rest') ∧ v'.name = v.name := by
  obtain ⟨front, called, rfl, hfront, hne, hname, gap, p, behind, rfl, hgap, hp, hparams⟩ :=
    functionDefinition_parts h
  have hopens : opens (v.name ++ (gap ++ p :: behind)) = false := by
    cases hv : v.name with
    | nil => exact absurd hv hne
    | cons g u => exact opens_of_inName (hname g (hv ▸ List.mem_cons_self)) _
  have hspelt : mapCalls f (front ++ (v.name ++ (gap ++ p :: behind))) =
      (front ++ (v.name ++ gap)) ++ p :: mapCalls f behind := by
    rw [mapCalls_append_closed hfront.closed hfront.last hopens, mapCalls_call hf hname hgap hp,
      hkept]
    simp only [List.append_assoc]
  have hclosed : ∀ x ∈ front ++ (v.name ++ gap), Glyph.seen x ≠ '(' := by
    refine List.forall_mem_append.mpr ⟨hfront.closed, List.forall_mem_append.mpr ⟨fun x hx e => ?_,
      (leadsIn_blank hgap).closed⟩⟩
    have := hname x hx
    rw [inName, e] at this
    exact absurd this (by decide)
  have hsame := readsUpTo_functionDefinition hp hclosed hparams (parameterList_mapCalls hf hparams)
  have hsplit : (front ++ (v.name ++ gap)) ++ p :: behind =
      front ++ (v.name ++ (gap ++ p :: behind)) := by
    simp only [List.append_assoc]
  rw [hsplit, h, ← hspelt] at hsame
  obtain ⟨⟨v', rest'⟩, hread, e⟩ := Option.map_eq_some_iff.mp hsame.symm
  exact ⟨v', rest', hread, e⟩

end PineTools
