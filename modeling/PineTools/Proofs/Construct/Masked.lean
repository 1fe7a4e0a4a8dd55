import PineTools.Proofs.Construct.LineByLine
import PineTools.Proofs.Pattern.Seen
import PineTools.Proofs.Scan.Mask

/-! Constructs are read off the mask. A statement that is met among the cells of a line is met among
the characters they show, with the same parts, so the checks, which read the mask, and the
rewritings, which read cells, take the same lines for declarations and definitions. -/
namespace PineTools

open Reader

theorem lines_linesFrom (entry : Region) (cs : List Cell) :
    Text.lines (cs.map Cell.masked) = (linesFrom entry cs).map ScriptLine.masked := by
  induction cs generalizing entry with
  | nil => rfl
  | cons c cs ih =>
    rw [List.map_cons, Text.lines, linesFrom]
    by_cases hc : c.char = '\n'
    · rw [if_pos (c.masked_newline.mpr hc), if_pos hc, ih c.region]
      rfl
    · rw [if_neg fun h => hc (c.masked_newline.mp h), if_neg hc, ih entry]
      cases linesFrom entry cs with
      | nil => rfl
      | cons l ls => rfl

theorem lines_mask_eq (t : Text) : Text.lines (mask t) = (scriptLines t).map ScriptLine.masked :=
  lines_linesFrom .code (cells t)

variable {α β γ : Type} [Glyph α]

namespace Reader

theorem seesAs_guard (p : Prop) [Decidable p] : SeesAs (guard p : Reader α Unit) (guard p) id := by
  unfold guard
  split
  · exact seesAs_pure () id
  · exact seesAs_failure id

theorem seesAs_run1 (p : Char → Bool) : SeesAs (run1 p : Reader α (List α)) (run1 p) seenText := by
  refine (seesAs_run p).bind fun gs => ?_
  have hempty : (seenText gs).isEmpty = gs.isEmpty := by cases gs <;> rfl
  rw [hempty]
  exact (seesAs_guard _).bind fun _ => seesAs_pure gs seenText

theorem SeesAs.ahead {r : Reader α β} {r' : Reader Char γ} {f : β → γ} (hr : SeesAs r r' f) :
    SeesAs (ahead r) (ahead r') id := by
  intro gs
  change ((r' (seenText gs)).map fun _ => ((), seenText gs)) = ((r gs).map fun _ => ((), gs)).map _
  rw [hr gs]
  cases r gs <;> rfl

theorem SeesAs.notAhead {r : Reader α β} {r' : Reader Char γ} {f : β → γ} (hr : SeesAs r r' f) :
    SeesAs (notAhead r) (notAhead r') id := by
  intro gs
  rw [Reader.notAhead, Reader.notAhead, hr gs]
  cases r gs <;> rfl

theorem seesAs_endOf (p : Char → Bool) :
    SeesAs (endOf p : Reader α Unit) (endOf p) id := (seesAs_one p).notAhead

theorem seesAs_inTurn_nil :
    SeesAs (inTurn [] : Reader α (List α)) (inTurn []) seenText := seesAs_pure [] seenText

theorem seesAs_inTurn_cons {r : Reader α (List α)} {r' : Reader Char Text}
    (hr : SeesAs r r' seenText) {rs : List (Reader α (List α))} {rs' : List (Reader Char Text)}
    (hrs : SeesAs (inTurn rs) (inTurn rs') seenText) :
    SeesAs (inTurn (r :: rs)) (inTurn (r' :: rs')) seenText := by
  refine hr.bind fun gs => hrs.bind fun hs => ?_
  have happend : seenText gs ++ seenText hs = seenText (gs ++ hs) := List.map_append.symm
  rw [happend]
  exact seesAs_pure (gs ++ hs) seenText

theorem seesAs_name : SeesAs (name : Reader α (List α)) name seenText :=
  (seesAs_one _).bind fun g => (seesAs_run _).bind fun gs => seesAs_pure (g :: gs) seenText

theorem seesAs_assign : SeesAs (assign : Reader α α) assign Glyph.seen :=
  (seesAs_one _).bind fun g => (seesAs_endOf _).bind fun _ => seesAs_pure g Glyph.seen

theorem seesAs_word (w : String) :
    SeesAs (word w : Reader α (List α)) (word w) seenText := seesAs_exactly w.toList

end Reader

theorem showsOneOf_seen (gs : List α) (words : List String) :
    showsOneOf (seenText gs) words = showsOneOf gs words := by
  have hshows : shows (seenText gs) = shows gs := by
    funext s
    exact congrArg (· == s.toList) (List.map_id (seenText gs))
  rw [showsOneOf, showsOneOf, hshows]

theorem seesAs_unqualifiedType :
    SeesAs (unqualifiedType : Reader α (List α)) unqualifiedType seenText := by
  refine (seesAs_run1 _).bind fun first => ?_
  rw [showsOneOf_seen, showsOneOf_seen]
  split
  · exact seesAs_pure first seenText
  · split
    · refine (seesAs_inTurn_cons (seesAs_word _) (seesAs_inTurn_cons (seesAs_run1 _)
        (seesAs_inTurn_cons (seesAs_word _) seesAs_inTurn_nil))).bind fun rest => ?_
      have happend : seenText first ++ seenText rest = seenText (first ++ rest) :=
        List.map_append.symm
      rw [happend]
      exact seesAs_pure (first ++ rest) seenText
    · exact seesAs_failure seenText

theorem seesAs_typeQualifier :
    SeesAs (typeQualifier : Reader α (List α)) typeQualifier seenText := by
  refine (seesAs_run1 _).bind fun gs => ?_
  rw [showsOneOf_seen]
  exact (seesAs_guard _).bind fun _ => seesAs_pure gs seenText

theorem seesAs_leadingType : SeesAs (leadingType : Reader α (List α)) leadingType seenText := by
  have hqualified : SeesAs (inTurn [typeQualifier, blanks1, unqualifiedType] : Reader α (List α))
      (inTurn [typeQualifier, blanks1, unqualifiedType]) seenText :=
    seesAs_inTurn_cons seesAs_typeQualifier (seesAs_inTurn_cons (seesAs_run1 _)
      (seesAs_inTurn_cons seesAs_unqualifiedType seesAs_inTurn_nil))
  have htype : SeesAs (typeName : Reader α (List α)) typeName seenText :=
    hqualified.orElse seesAs_unqualifiedType
  exact htype.bind fun type => (seesAs_run1 _).discard.bind fun _ => seesAs_pure type seenText

theorem seesAs_definitionFromName :
    SeesAs (definitionFromName : Reader α (List α × List α)) definitionFromName
    (fun v => (seenText v.1, seenText v.2)) := by
  have hcontrol : SeesAs (notAhead (firstOf (controlWords.map fun w => do
      discard <| word w
      endOf Text.isWord)) : Reader α Unit) (notAhead (firstOf (controlWords.map fun w => do
      discard <| word w
      endOf Text.isWord))) id :=
    (seesAs_firstOf _ fun w => (seesAs_word w).discard.bind fun _ => seesAs_endOf _).notAhead
  refine hcontrol.bind fun _ => seesAs_name.bind fun name => (seesAs_run _).discard.bind fun _ => ?_
  refine (seesAs_one _).discard.bind fun _ => (seesAs_run _).bind fun params =>
    (seesAs_one _).discard.bind fun _ => ?_
  exact (seesAs_run _).discard.bind fun _ => (seesAs_word _).discard.bind fun _ =>
    seesAs_pure (name, params) fun v => (seenText v.1, seenText v.2)

/-- A definition with its parts as the characters show them. -/
def FunctionDefinition.seen (d : FunctionDefinition α) : FunctionDefinition Char :=
  ⟨seenText d.indent, d.method.map seenText, d.returnType.map seenText, seenText d.name,
    seenText d.params⟩

theorem seesAs_plainDefinition (indent : List α) (method : Option (List α)) (typed : Bool) :
    SeesAs (plainDefinition indent method typed)
    (plainDefinition (seenText indent) (method.map seenText) typed)
      FunctionDefinition.seen := by
  cases typed with
  | true =>
    refine seesAs_leadingType.bind fun type => seesAs_definitionFromName.bind fun v => ?_
    exact seesAs_pure (⟨indent, method, some type, v.1, v.2⟩ : FunctionDefinition α)
      FunctionDefinition.seen
  | false =>
    refine seesAs_definitionFromName.bind fun v => ?_
    exact seesAs_pure (⟨indent, method, none, v.1, v.2⟩ : FunctionDefinition α)
      FunctionDefinition.seen

theorem seesAs_methodMark : SeesAs (methodMark : Reader α (List α)) methodMark seenText :=
  seesAs_inTurn_cons (seesAs_word _) (seesAs_inTurn_cons (seesAs_run1 _) seesAs_inTurn_nil)

theorem seesAs_functionDefinition :
    SeesAs (functionDefinition none : Reader α (FunctionDefinition α)) (functionDefinition none)
    FunctionDefinition.seen := by
  rw [functionDefinition_none_eq, functionDefinition_none_eq]
  refine (seesAs_run _).bind fun indent => ?_
  have hmarked (typed : Bool) :
    SeesAs (methodMark >>= fun m => plainDefinition indent (some m) typed)
      (methodMark >>= fun m => plainDefinition (seenText indent) (some m) typed)
        FunctionDefinition.seen :=
    seesAs_methodMark.bind fun m => seesAs_plainDefinition indent (some m) typed
  have hplain (typed : Bool) := seesAs_plainDefinition indent none typed
  exact (hmarked true).orElse
    ((hmarked false).orElse ((hplain true).orElse ((hplain false).orElse (seesAs_failure _))))

/-- A declaration with its parts as the characters show them. -/
def VariableDeclaration.seen (d : VariableDeclaration α) : VariableDeclaration Char :=
  ⟨seenText d.indent, seenText d.keyword, d.type.map seenText, seenText d.name⟩

theorem seesAs_assignedName : SeesAs (assignedName : Reader α (List α)) assignedName seenText :=
  seesAs_name.bind fun name => (seesAs_run _).discard.bind fun _ =>
    seesAs_assign.discard.bind fun _ =>
    seesAs_pure name seenText

theorem seesAs_variableDeclaration :
    SeesAs (variableDeclaration none : Reader α (VariableDeclaration α))
    (variableDeclaration none) VariableDeclaration.seen := by
  rw [variableDeclaration_none_eq, variableDeclaration_none_eq]
  refine (seesAs_run _).bind fun indent => (seesAs_word _).bind fun keyword =>
    (seesAs_run1 _).discard.bind fun _ => ?_
  refine SeesAs.orElse ?_ (SeesAs.orElse ?_ (seesAs_failure _))
  · exact seesAs_leadingType.bind fun type => seesAs_assignedName.bind fun name =>
      seesAs_pure (⟨indent, keyword, some type, name⟩ : VariableDeclaration α)
        VariableDeclaration.seen
  · exact seesAs_assignedName.bind fun name =>
      seesAs_pure (⟨indent, keyword, none, name⟩ : VariableDeclaration α) VariableDeclaration.seen

def LeadingKeyword.seen (k : LeadingKeyword α) :
    LeadingKeyword Char := ⟨seenText k.indent, seenText k.keyword⟩

theorem seesAs_leadingKeyword (w : String) :
    SeesAs (leadingKeyword w none : Reader α (LeadingKeyword α))
    (leadingKeyword w none) LeadingKeyword.seen := by
  refine (seesAs_run _).bind fun indent => (seesAs_word w).bind fun keyword =>
    (seesAs_run1 _).ahead.bind fun _ => ?_
  exact seesAs_pure (⟨indent, keyword⟩ : LeadingKeyword α) LeadingKeyword.seen

/-- An exported variable with its parts as the characters show them. -/
def ExportedVariable.seen (e : ExportedVariable α) : ExportedVariable Char :=
  ⟨seenText e.indent, seenText e.kind, seenText e.name, seenText e.value, seenText e.tail⟩

theorem seesAs_exportClosing :
    SeesAs (exportClosing : Reader α (List α)) exportClosing seenText := by
  refine seesAs_inTurn_cons ((seesAs_run _).bind fun gs => ?_)
    (seesAs_inTurn_cons (seesAs_run _) seesAs_inTurn_nil)
  have hlength : (seenText gs).length = gs.length := List.length_map _
  rw [hlength]
  split
  · exact seesAs_pure gs seenText
  · exact seesAs_failure _

theorem seesAs_exportedVariable : SeesAs (exportedVariable none : Reader α (ExportedVariable α))
    (exportedVariable none) ExportedVariable.seen := by
  refine (seesAs_run _).bind fun indent => (seesAs_word _).discard.bind fun _ => ?_
  refine (seesAs_run1 _).discard.bind fun _ => (seesAs_firstOf _ fun w => seesAs_word w).bind
    fun kind => ?_
  refine (seesAs_run1 _).discard.bind fun _ => seesAs_name.bind fun name => ?_
  refine (seesAs_run _).discard.bind fun _ => seesAs_assign.discard.bind fun _ => ?_
  refine (seesAs_run _).discard.bind fun _ => (seesAs_run _).bind fun body => ?_
  refine seesAs_exportClosing.bind fun closing => (seesAs_endOf _).bind fun _ => ?_
  have hvalue : Text.trimRight (fun c => Text.isBlank (Glyph.seen c)) (seenText body) =
      seenText (Text.trimRight (fun g : α => Text.isBlank (Glyph.seen g)) body) := by
    simp only [Text.trimRight, seenText, ← List.map_reverse, List.dropWhile_map]
    rfl
  have htail (n : Nat) : (seenText body).drop n ++ seenText closing =
      seenText (body.drop n ++ closing) := by
    rw [seenText, seenText, seenText, List.map_append, List.map_drop]
  have hlength (gs : List α) : (seenText gs).length = gs.length := List.length_map _
  simp only [hvalue, htail, hlength]
  exact seesAs_pure (⟨indent, kind, name, _, _⟩ : ExportedVariable α) ExportedVariable.seen

theorem masked_eq_seenText (line : ScriptLine) : line.masked = seenText line.cells := rfl

theorem seenText_append {α : Type} [Glyph α] (a b : List α) :
    seenText (a ++ b) = seenText a ++ seenText b := List.map_append

theorem readAt?_seen {β γ : Type} {p : Pattern Cell β} {p' : Pattern Char γ} {f : β → γ}
    (h : SeesAs (p none) (p' none) f) (gs : List Cell) : p'.readAt? (seenText gs) =
      (p.readAt? gs).map f := by
  rw [Pattern.readAt?, Pattern.readAt?, h gs]
  cases p none gs <;> rfl

end PineTools
