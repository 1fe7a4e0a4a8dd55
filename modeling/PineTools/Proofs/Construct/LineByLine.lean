import PineTools.Construct.Call
import PineTools.Construct.Statement
import PineTools.Proofs.Pattern.LineWise
import PineTools.Proofs.Pattern.Progress

namespace PineTools

open Reader Pattern

variable {α : Type} [Glyph α]

namespace Reader

variable {c : Char}

theorem haltsAt_word {w : String} (hw : c ∉ w.toList) :
    HaltsAt c (word w : Reader α (List α)) := haltsAt_exactly hw

theorem haltsAt_assign (hc : c ≠ '=') : HaltsAt c (assign : Reader α α) := by
  have hsign : HaltsAt c (one (· == '=') : Reader α α) := haltsAt_one (beq_false_of_ne hc)
  exact hsign.bind fun _ => (haltsAt_notAhead hsign).bind fun _ => haltsAt_pure _

theorem haltsAt_inTurn {rs : List (Reader α (List α))} (h : ∀ r ∈ rs, HaltsAt c r) :
    HaltsAt c (inTurn rs) := by
  induction rs with
  | nil => exact haltsAt_pure []
  | cons r rs ih =>
    obtain ⟨hr, hrs⟩ := List.forall_mem_cons.mp h
    exact hr.bind fun _ => (ih hrs).bind fun _ => haltsAt_pure _

omit [Glyph α] in
theorem trims_inTurn {rs : List (Reader α (List α))} (h : ∀ r ∈ rs, Trims r) :
    Trims (inTurn rs) := by
  induction rs with
  | nil => exact trims_pure []
  | cons r rs ih =>
    obtain ⟨hr, hrs⟩ := List.forall_mem_cons.mp h
    exact hr.bind fun _ => (ih hrs).bind fun _ => trims_pure _

theorem eats_word {w : String} (hw : w.toList ≠ []) :
    Eats (word w : Reader α (List α)) := eats_exactly hw

end Reader

/-- Characters that no type and no keyword in front of a name holds. -/
def endsTypes (c : Char) : Bool := c == '\n' || c == '('

theorem eq_of_endsTypes {c : Char} (hc : endsTypes c = true) : c = '\n' ∨ c = '(' := by
  rw [endsTypes, Bool.or_eq_true, beq_iff_eq, beq_iff_eq] at hc
  exact hc

theorem not_of_endsTypes {c : Char} (hc : endsTypes c = true) {p : Char → Bool}
    (hp : p '\n' = false ∧ p '(' = false) : p c = false := by
  rcases eq_of_endsTypes hc with rfl | rfl
  · exact hp.1
  · exact hp.2

theorem haltsAt_word_of_endsTypes {c : Char} (hc : endsTypes c = true) {w : String}
    (hw : '\n' ∉ w.toList ∧ '(' ∉ w.toList) : HaltsAt c (word w : Reader α (List α)) := by
  rcases eq_of_endsTypes hc with rfl | rfl
  · exact haltsAt_word hw.1
  · exact haltsAt_word hw.2

theorem haltsAt_unqualifiedType {c : Char} (hc : endsTypes c = true) :
    HaltsAt c (unqualifiedType : Reader α (List α)) := by
  refine (haltsAt_run1 (not_of_endsTypes hc (by decide))).bind fun first => ?_
  split
  · exact haltsAt_pure _
  · split
    · refine (haltsAt_inTurn fun r hr => ?_).bind fun _ => haltsAt_pure _
      simp only [List.mem_cons, List.not_mem_nil, or_false] at hr
      rcases hr with rfl | rfl | rfl
      · exact haltsAt_word_of_endsTypes hc (by decide)
      · exact haltsAt_run1 (@not_of_endsTypes c hc
          (fun c => Text.isWord c || Text.isBlank c || c == ',' || c == '.') (by decide))
      · exact haltsAt_word_of_endsTypes hc (by decide)
    · exact haltsAt_failure

theorem trims_unqualifiedType : Trims (unqualifiedType : Reader α (List α)) := by
  refine (eats_run1 _).trims.bind fun first => ?_
  split
  · exact trims_pure _
  · split
    · refine (trims_inTurn fun r hr => ?_).bind fun _ => trims_pure _
      simp only [List.mem_cons, List.not_mem_nil, or_false] at hr
      rcases hr with rfl | rfl | rfl
      · exact (eats_word (by decide)).trims
      · exact (eats_run1 _).trims
      · exact (eats_word (by decide)).trims
    · exact eats_failure.trims

def typeQualifier : Reader α (List α) := do
  let gs ← run1 Text.isWord
  guard (showsOneOf gs typeQualifiers)
  return gs

theorem haltsAt_typeName {c : Char} (hc : endsTypes c = true) :
    HaltsAt c (typeName : Reader α (List α)) := by
  refine HaltsAt.orElse (haltsAt_inTurn (List.forall_mem_cons.mpr ⟨?_, List.forall_mem_cons.mpr
    ⟨?_, List.forall_mem_singleton.mpr ?_⟩⟩)) (haltsAt_unqualifiedType hc)
  · exact (haltsAt_run1 (not_of_endsTypes hc (by decide))).bind fun _ =>
      (haltsAt_guard _).bind fun _ => haltsAt_pure _
  · exact haltsAt_run1 (not_of_endsTypes hc (by decide))
  · exact haltsAt_unqualifiedType hc

theorem haltsAt_leadingType {c : Char} (hc : endsTypes c = true) :
    HaltsAt c (leadingType : Reader α (List α)) := by
  have hblanks : HaltsAt c (discard blanks1 : Reader α Unit) :=
    (haltsAt_run1 (not_of_endsTypes hc (by decide))).discard
  exact (haltsAt_typeName hc).bind fun _ => hblanks.bind fun _ => haltsAt_pure _

theorem trims_typeName : Trims (typeName : Reader α (List α)) := by
  refine Trims.orElse (trims_inTurn (List.forall_mem_cons.mpr ⟨?_, List.forall_mem_cons.mpr
    ⟨?_, List.forall_mem_singleton.mpr ?_⟩⟩)) trims_unqualifiedType
  · exact (eats_run1 _).trims.bind fun _ => (trims_guard _).bind fun _ => trims_pure _
  · exact (eats_run1 _).trims
  · exact trims_unqualifiedType

theorem trims_leadingType : Trims (leadingType : Reader α (List α)) :=
  trims_typeName.bind fun _ => (eats_run1 _).discard.trims.bind fun _ => trims_pure _

def notControlWord : Reader α Unit :=
  notAhead (firstOf (controlWords.map fun w => do
    discard <| word w
    endOf Text.isWord))

theorem haltsAt_notControlWord {c : Char} (hc : endsTypes c = true) :
    HaltsAt c (notControlWord : Reader α Unit) := by
  refine haltsAt_notAhead (haltsAt_firstOf fun r hr => ?_)
  obtain ⟨w, hw, rfl⟩ := List.mem_map.mp hr
  have hends : ∀ w ∈ controlWords, '\n' ∉ w.toList ∧ '(' ∉ w.toList := by decide
  exact (haltsAt_word_of_endsTypes hc (hends w hw)).discard.bind fun _ =>
    haltsAt_notAhead (haltsAt_one (not_of_endsTypes hc (by decide)))

theorem haltsAt_definitionFromName :
    HaltsAt '\n' (definitionFromName : Reader α (List α × List α)) := by
  have hblanks : HaltsAt '\n' (discard blanks : Reader α Unit) := (haltsAt_run (by decide)).discard
  refine (haltsAt_notControlWord rfl).bind fun _ => (haltsAt_name (by decide) (by decide)).bind
    fun _ => hblanks.bind fun _ => ?_
  refine (haltsAt_one (by decide)).discard.bind fun _ => (haltsAt_run (by decide)).bind fun _ => ?_
  refine (haltsAt_one (by decide)).discard.bind fun _ => hblanks.bind fun _ => ?_
  exact (haltsAt_word (by decide)).discard.bind fun _ => haltsAt_pure _

theorem eats_definitionFromName : Eats (definitionFromName : Reader α (List α × List α)) := by
  refine (trims_notAhead _).bind_eats fun _ => eats_name.bind fun _ =>
    (trims_run _).discard.bind fun _ => ?_
  refine (eats_one _).discard.trims.bind fun _ => (trims_run _).bind fun _ => ?_
  refine (eats_one _).discard.trims.bind fun _ => (trims_run _).discard.bind fun _ => ?_
  exact (eats_word (by decide)).discard.trims.bind fun _ => trims_pure _

def methodMark : Reader α (List α) := inTurn [word "method", blanks1]

def plainDefinition (indent : List α) (method : Option (List α)) (typed : Bool) :
    Reader α (FunctionDefinition α) :=
  match typed with
  | true => do
    let type ← leadingType
    let (name, params) ← definitionFromName
    return ⟨indent, method, some type, name, params⟩
  | false => do
    let (name, params) ← definitionFromName
    return ⟨indent, method, none, name, params⟩

theorem functionDefinition_none_eq :
    (functionDefinition none : Reader α (FunctionDefinition α)) = (do
    let indent ← blanks
    firstOf
      [methodMark >>= fun m => plainDefinition indent (some m) true,
       methodMark >>= fun m => plainDefinition indent (some m) false,
       plainDefinition indent none true,
       plainDefinition indent none false]) := rfl

theorem haltsAt_plainDefinition (indent : List α) (method : Option (List α)) (typed : Bool) :
    HaltsAt '\n' (plainDefinition indent method typed) := by
  cases typed with
  | true => exact (haltsAt_leadingType rfl).bind fun _ =>
    haltsAt_definitionFromName.bind fun ⟨_, _⟩ => haltsAt_pure _
  | false => exact haltsAt_definitionFromName.bind fun ⟨_, _⟩ => haltsAt_pure _

theorem eats_plainDefinition (indent : List α) (method : Option (List α)) (typed : Bool) :
    Eats (plainDefinition indent method typed) := by
  cases typed with
  | true => exact trims_leadingType.bind_eats fun _ => eats_definitionFromName.bind fun ⟨_, _⟩ =>
    trims_pure _
  | false => exact eats_definitionFromName.bind fun ⟨_, _⟩ => trims_pure _

theorem haltsAt_methodMark {c : Char} (hc : endsTypes c = true) :
    HaltsAt c (methodMark : Reader α (List α)) := by
  refine haltsAt_inTurn fun r hr => ?_
  simp only [List.mem_cons, List.not_mem_nil, or_false] at hr
  rcases hr with rfl | rfl
  · exact haltsAt_word_of_endsTypes hc (by decide)
  · exact haltsAt_run1 (not_of_endsTypes hc (by decide))

theorem trims_methodMark : Trims (methodMark : Reader α (List α)) := by
  refine trims_inTurn fun r hr => ?_
  simp only [List.mem_cons, List.not_mem_nil, or_false] at hr
  rcases hr with rfl | rfl
  · exact (eats_word (by decide)).trims
  · exact (eats_run1 _).trims

theorem lineWise_functionDefinition :
    (functionDefinition : Pattern α (FunctionDefinition α)).LineWise := by
  have heats : Eats (functionDefinition none : Reader α (FunctionDefinition α)) := by
    rw [functionDefinition_none_eq]
    refine (trims_run _).bind_eats fun indent => eats_firstOf fun r hr => ?_
    simp only [List.mem_cons, List.not_mem_nil, or_false] at hr
    rcases hr with rfl | rfl | rfl | rfl
    · exact trims_methodMark.bind_eats fun _ => eats_plainDefinition _ _ _
    · exact trims_methodMark.bind_eats fun _ => eats_plainDefinition _ _ _
    · exact eats_plainDefinition _ _ _
    · exact eats_plainDefinition _ _ _
  have hhalts : HaltsAt '\n' (functionDefinition none : Reader α (FunctionDefinition α)) := by
    rw [functionDefinition_none_eq]
    refine (haltsAt_run (by decide)).bind fun indent => haltsAt_firstOf fun r hr => ?_
    simp only [List.mem_cons, List.not_mem_nil, or_false] at hr
    rcases hr with rfl | rfl | rfl | rfl
    · exact (haltsAt_methodMark rfl).bind fun _ => haltsAt_plainDefinition _ _ _
    · exact (haltsAt_methodMark rfl).bind fun _ => haltsAt_plainDefinition _ _ _
    · exact haltsAt_plainDefinition _ _ _
    · exact haltsAt_plainDefinition _ _ _
  exact lineWise_atLineStart (advances_atLineStart heats) hhalts

/-- The name of a declared variable, up to the assignment sign. -/
def assignedName : Reader α (List α) := do
  let name ← name
  discard blanks
  discard assign
  return name

theorem variableDeclaration_none_eq :
    (variableDeclaration none : Reader α (VariableDeclaration α)) = (do
    let indent ← blanks
    let keyword ← word "var"
    discard blanks1
    firstOf
      [do
        let type ← leadingType
        let name ← assignedName
        return ⟨indent, keyword, some type, name⟩,
       do
        let name ← assignedName
        return ⟨indent, keyword, none, name⟩]) := rfl

theorem eats_assignedName : Eats (assignedName : Reader α (List α)) := by
  refine eats_name.bind fun _ => (trims_run _).discard.bind fun _ => ?_
  have hassign : Trims (assign : Reader α α) := (eats_one _).trims.bind fun _ =>
    (trims_notAhead _).bind fun _ => trims_pure _
  exact hassign.discard.bind fun _ => trims_pure _

theorem lineWise_variableDeclaration :
    (variableDeclaration : Pattern α (VariableDeclaration α)).LineWise := by
  have heats : Eats (variableDeclaration none : Reader α (VariableDeclaration α)) := by
    rw [variableDeclaration_none_eq]
    refine (trims_run _).bind_eats fun _ => (eats_word (by decide)).bind fun _ => ?_
    refine (eats_run1 _).discard.trims.bind fun _ => (eats_firstOf fun r hr => ?_).trims
    simp only [List.mem_cons, List.not_mem_nil, or_false] at hr
    rcases hr with rfl | rfl
    · exact trims_leadingType.bind_eats fun _ => eats_assignedName.bind fun _ => trims_pure _
    · exact eats_assignedName.bind fun _ => trims_pure _
  have hname : HaltsAt '\n' (assignedName : Reader α (List α)) := by
    refine (haltsAt_name (by decide) (by decide)).bind fun _ =>
      (haltsAt_run (by decide)).discard.bind fun _ => ?_
    exact (haltsAt_assign (by decide)).discard.bind fun _ => haltsAt_pure _
  have hhalts : HaltsAt '\n' (variableDeclaration none : Reader α (VariableDeclaration α)) := by
    rw [variableDeclaration_none_eq]
    refine (haltsAt_run (by decide)).bind fun _ => (haltsAt_word (by decide)).bind fun _ => ?_
    refine (haltsAt_run1 (by decide)).discard.bind fun _ => haltsAt_firstOf fun r hr => ?_
    simp only [List.mem_cons, List.not_mem_nil, or_false] at hr
    rcases hr with rfl | rfl
    · exact (haltsAt_leadingType rfl).bind fun _ => hname.bind fun _ => haltsAt_pure _
    · exact hname.bind fun _ => haltsAt_pure _
  exact lineWise_atLineStart (advances_atLineStart heats) hhalts

/-- What closes an export that declares a variable: at most one semicolon, and blanks. -/
def exportClosing : Reader α (List α) :=
  inTurn [run (· == ';') >>= fun gs => if gs.length ≤ 1 then return gs else failure, blanks]

theorem haltsAt_exportClosing : HaltsAt '\n' (exportClosing : Reader α (List α)) := by
  refine haltsAt_inTurn fun r hr => ?_
  simp only [List.mem_cons, List.not_mem_nil, or_false] at hr
  rcases hr with rfl | rfl
  · refine (haltsAt_run (by decide)).bind fun gs => ?_
    split
    · exact haltsAt_pure gs
    · exact haltsAt_failure
  · exact haltsAt_run (by decide)

theorem trims_exportClosing : Trims (exportClosing : Reader α (List α)) := by
  refine trims_inTurn fun r hr => ?_
  simp only [List.mem_cons, List.not_mem_nil, or_false] at hr
  rcases hr with rfl | rfl
  · refine (trims_run _).bind fun gs => ?_
    split
    · exact trims_pure gs
    · exact eats_failure.trims
  · exact trims_run _

theorem lineWise_exportedVariable :
    (exportedVariable : Pattern α (ExportedVariable α)).LineWise := by
  have hkinds : ∀ w ∈ exportKinds, '\n' ∉ w.toList ∧ w.toList ≠ [] := by decide
  have htrims : Trims (assign : Reader α α) :=
    (eats_one _).trims.bind fun _ => (trims_notAhead _).bind fun _ => trims_pure _
  refine lineWise_atLineStart (advances_atLineStart ?_) ?_
  · refine (trims_run _).bind_eats fun _ => (eats_word (by decide)).discard.bind fun _ => ?_
    refine (eats_run1 _).discard.trims.bind fun _ => ?_
    refine (eats_firstOf fun r hr => ?_).trims.bind fun _ =>
      (eats_run1 _).discard.trims.bind fun _ => ?_
    · obtain ⟨w, hw, rfl⟩ := List.mem_map.mp hr
      exact eats_word (hkinds w hw).2
    · refine eats_name.trims.bind fun _ => (trims_run _).discard.bind fun _ =>
        htrims.discard.bind fun _ => ?_
      refine (trims_run _).discard.bind fun _ => (trims_run _).bind fun _ =>
        trims_exportClosing.bind fun _ => ?_
      exact (trims_notAhead _).bind fun _ => trims_pure _
  · refine (haltsAt_run (by decide)).bind fun _ => (haltsAt_word (by decide)).discard.bind fun _ =>
      ?_
    refine (haltsAt_run1 (by decide)).discard.bind fun _ => ?_
    refine (haltsAt_firstOf fun r hr => ?_).bind fun _ =>
      (haltsAt_run1 (by decide)).discard.bind fun _ => ?_
    · obtain ⟨w, hw, rfl⟩ := List.mem_map.mp hr
      exact haltsAt_word (hkinds w hw).1
    · refine (haltsAt_name (by decide) (by decide)).bind fun _ =>
        (haltsAt_run (by decide)).discard.bind fun _ => ?_
      refine (haltsAt_assign (by decide)).discard.bind fun _ =>
        (haltsAt_run (by decide)).discard.bind fun _ => ?_
      refine (haltsAt_run (by decide)).bind fun _ => haltsAt_exportClosing.bind fun _ => ?_
      exact (haltsAt_notAhead (haltsAt_one (by decide))).bind fun _ => haltsAt_pure _

theorem lineWise_leadingKeyword {w : String} (hne : w.toList ≠ []) (hnl : '\n' ∉ w.toList) :
    (leadingKeyword w : Pattern α (LeadingKeyword α)).LineWise := by
  refine lineWise_atLineStart (advances_atLineStart ?_) ?_
  · refine (trims_run _).bind_eats fun _ => (eats_word hne).bind fun _ => ?_
    exact (trims_ahead _).bind fun _ => trims_pure _
  · refine (haltsAt_run (by decide)).bind fun _ => (haltsAt_word hnl).bind fun _ => ?_
    exact (haltsAt_ahead (haltsAt_run1 (by decide))).bind fun _ => haltsAt_pure _

theorem lineWise_importStatement : (importStatement : Pattern α Unit).LineWise := by
  refine lineWise_atLineStart (advances_atLineStart ?_) ?_
  · refine (trims_run _).discard.bind_eats fun _ => (eats_word (by decide)).discard.bind fun _ => ?_
    exact (eats_run1 _).discard.trims.bind fun _ => (eats_run1 _).discard.trims
  · refine (haltsAt_run (by decide)).discard.bind fun _ =>
      (haltsAt_word (by decide)).discard.bind fun _ => ?_
    exact (haltsAt_run1 (by decide)).discard.bind fun _ => (haltsAt_run1 (by decide)).discard

theorem lineWise_callOf {name : Text} (hne : name ≠ []) (hnl : '\n' ∉ name) :
    (callOf name : Pattern α Unit).LineWise := by
  have hopen : HaltsAt '\n' (ahead do
      discard blanks
      one (· == '(') : Reader α Unit) :=
    haltsAt_ahead ((haltsAt_run (by decide)).discard.bind fun _ => haltsAt_one (by decide))
  exact lineWise_fresh (advances_fresh ((eats_exactly hne).discard.bind fun _ => trims_ahead _))
    ((haltsAt_exactly hnl).discard.bind fun _ => hopen)

end PineTools
