import PineTools.Proofs.Construct.LineByLine
import PineTools.Proofs.Pattern.Occurrences

/-! Characters that a construct cannot do without. A line that does not show the character is not
read as the construct, whatever else stands on it; in particular no construct is read on a blank
line. -/
namespace PineTools

open Reader

variable {α β γ : Type} [Glyph α]

namespace Reader

variable {c : Char}

/-- The reader succeeds only where the character is shown. -/
def Demands (c : Char) (r : Reader α β) : Prop := ∀ ⦃gs v rest⦄, r gs = some (v, rest) →
    c ∈ seenText gs

theorem Demands.bind {x : Reader α β} (hx : Demands c x) {f : β → Reader α γ} :
    Demands c (x >>= f) := by
  intro gs v rest h
  obtain ⟨b, rest', hb, -⟩ := bind_eq_some.mp h
  exact hx hb

theorem Trims.bind_demands {x : Reader α β} (hx : Trims x) {f : β → Reader α γ}
    (hf : ∀ b, Demands c (f b)) :
    Demands c (x >>= f) := by
  intro gs v rest h
  obtain ⟨b, rest', hb, hv⟩ := bind_eq_some.mp h
  obtain ⟨taken, rfl⟩ := hx hb
  rw [seenText, List.map_append]
  exact List.mem_append_right _ (hf b hv)

theorem Demands.discard {x : Reader α β} (hx : Demands c x) :
    Demands c (discard x : Reader α Unit) :=
  (hx.bind : Demands c (x >>= fun _ => (pure () : Reader α Unit)))

theorem demands_firstOf {xs : List (Reader α β)} (h : ∀ x ∈ xs, Demands c x) :
    Demands c (firstOf xs) := by
  intro gs v rest e
  obtain ⟨x, hx, e⟩ := firstOf_eq_some e
  exact h x hx e

theorem demands_one : Demands c (one (· == c) : Reader α α) := by
  intro gs v rest h
  obtain ⟨rfl, hseen⟩ := one_eq_some.mp h
  exact beq_iff_eq.mp hseen ▸ List.mem_cons_self

theorem demands_word {w : String} (hc : c ∈ w.toList) : Demands c (word w : Reader α (List α)) := by
  intro gs v rest h
  obtain ⟨rfl, hseen⟩ := exactly_eq_some.mp h
  rw [seenText, List.map_append]
  exact List.mem_append_left _ (hseen ▸ hc : c ∈ seenText v)

end Reader

theorem Pattern.demands_occursIn {p : Pattern α β} {c : Char} (h : ∀ before, Demands c (p before))
    {gs : List α} (hoccurs : p.occursIn gs = true) : c ∈ seenText gs := by
  have hread {before : Option Char} {gs : List α} (e : (p before gs).isSome = true) :
      c ∈ seenText gs := by
    obtain ⟨⟨v, rest⟩, e⟩ := Option.isSome_iff_exists.mp e
    exact h before e
  rw [occursIn_eq] at hoccurs
  generalize (none : Option Char) = before at hoccurs
  induction gs generalizing before with
  | nil => exact hread hoccurs
  | cons g gs ih =>
    rcases Bool.or_eq_true_iff.mp hoccurs with e | e
    · exact hread e
    · exact List.mem_cons_of_mem _ (ih _ e)

theorem demands_declaration : Demands '(' (declaration none : Reader α DeclarationCall) := by
  refine demands_firstOf fun r hr => ?_
  obtain ⟨call, -, rfl⟩ := List.mem_map.mp hr
  have hname : Trims (discard (word call.name) : Reader α Unit) := by
    cases call <;> exact (eats_word (by decide)).discard.trims
  refine hname.bind_demands fun _ => ?_
  exact (trims_run _).discard.bind_demands fun _ => demands_one.discard.bind

theorem demands_exportHead {c : Char} (hc : c ∈ "export".toList) :
    Demands c (exportHead none : Reader α (List α)) :=
  Demands.bind (Trims.bind_demands (trims_run _) fun _ => (demands_word hc).bind.bind)

theorem demands_definitionFromName :
    Demands '=' (definitionFromName : Reader α (List α × List α)) := by
  refine (trims_notAhead _).bind_demands fun _ => eats_name.trims.bind_demands fun _ => ?_
  refine (trims_run _).discard.bind_demands fun _ =>
    (eats_one _).discard.trims.bind_demands fun _ => ?_
  refine (trims_run _).bind_demands fun _ => (eats_one _).discard.trims.bind_demands fun _ => ?_
  exact (trims_run _).discard.bind_demands fun _ => (demands_word (by decide)).discard.bind

theorem demands_plainDefinition (indent : List α) (method : Option (List α)) (typed : Bool) :
    Demands '=' (plainDefinition indent method typed) := by
  cases typed with
  | true => exact trims_leadingType.bind_demands fun _ => demands_definitionFromName.bind
  | false => exact demands_definitionFromName.bind

theorem demands_functionDefinition :
    Demands '=' (functionDefinition none : Reader α (FunctionDefinition α)) := by
  rw [functionDefinition_none_eq]
  refine (trims_run _).bind_demands fun indent => demands_firstOf fun r hr => ?_
  simp only [List.mem_cons, List.not_mem_nil, or_false] at hr
  rcases hr with rfl | rfl | rfl | rfl
  · exact trims_methodMark.bind_demands fun _ => demands_plainDefinition _ _ _
  · exact trims_methodMark.bind_demands fun _ => demands_plainDefinition _ _ _
  · exact demands_plainDefinition _ _ _
  · exact demands_plainDefinition _ _ _

theorem demands_variableDeclaration :
    Demands 'v' (variableDeclaration none : Reader α (VariableDeclaration α)) := by
  rw [variableDeclaration_none_eq]
  exact (trims_run _).bind_demands fun _ => (demands_word (by decide)).bind

theorem demands_varipWord (before : Option Char) :
    Demands 'v' (varipWord before : Reader α Unit) := by
  intro gs v rest h
  obtain ⟨-, h⟩ := Pattern.fresh_eq_some.mp h
  exact Demands.bind (demands_word (by decide)).discard h

end PineTools
