import PineTools.Settings.Checked

namespace PineTools

namespace Checked

variable {α β : Type}

theorem map_eq_ok {f : α → β} {c : Checked α} {b : β} :
    f <$> c = .ok b ↔ ∃ a, c = .ok a ∧ f a = b := by
  cases c with
  | ok a => exact ⟨fun h => ⟨a, rfl, ok.inj h⟩, fun ⟨a', ha, hb⟩ => by
      cases ha; exact congrArg ok hb⟩
  | bad faults => exact ⟨fun h => (nomatch h), fun ⟨a, ha, _⟩ => nomatch ha⟩

theorem seq_eq_ok {f : Checked (α → β)} {c : Checked α} {b : β} :
    f <*> c = .ok b ↔ ∃ g a, f = .ok g ∧ c = .ok a ∧ g a = b := by
  constructor
  · intro h
    cases f with
    | ok g =>
      cases c with
      | ok a => exact ⟨g, a, rfl, rfl, ok.inj h⟩
      | bad faults => cases h
    | bad faults => cases c <;> cases h
  · rintro ⟨g, a, rfl, rfl, rfl⟩
    rfl

theorem within_eq_ok {step : PathStep} {c : Checked α} {a : α} :
    c.within step = .ok a ↔ c = .ok a := by
  cases c with
  | ok a' => exact Iff.rfl
  | bad faults => exact ⟨fun h => (nomatch h), fun h => nomatch h⟩

theorem require_eq_ok {p : α → Bool} {kind : FaultKind} {c : Checked α} {a : α} :
    c.require p kind = .ok a ↔ c = .ok a ∧ p a = true := by
  cases c with
  | ok a' =>
    rw [require]
    split
    · next hp => exact ⟨fun h => ⟨h, ok.inj h ▸ hp⟩, And.left⟩
    · next hp => exact ⟨fun h => (nomatch h), fun ⟨h, hpa⟩ => absurd hpa (ok.inj h ▸ hp)⟩
  | bad faults => exact ⟨fun h => (nomatch h), fun h => nomatch h.1⟩

end Checked

namespace Read

open Checked

variable {α : Type} {fields : List (Text × Json)} {key : String} {default a : α}
    {read : Json → Checked α} {v : Json}

theorem field?_obj (fields : List (Text × Json)) (key : String) :
    (Json.obj fields).field? key = (fields.find? fun f => f.1 == key.toList).map Prod.snd := rfl

theorem required_eq_ok :
    required fields key read = .ok a ↔ ∃ v, (Json.obj fields).field? key = some v ∧
    read v = .ok a := by
  rw [required, field?_obj]
  cases fields.find? fun f => f.1 == key.toList with
  | none => exact ⟨fun h => (nomatch h), fun ⟨v, hv, _⟩ => nomatch hv⟩
  | some f => exact within_eq_ok.trans ⟨fun h => ⟨f.2, rfl, h⟩, fun ⟨v, hv, h⟩ =>
      Option.some.inj hv ▸ h⟩

theorem field_eq_ok : field fields key default read = .ok a ↔
    (∃ v, (Json.obj fields).field? key = some v ∧ read v = .ok a) ∨ (Json.obj fields).field? key =
      none ∧ a = default := by
  rw [field, field?_obj]
  cases fields.find? fun f => f.1 == key.toList with
  | none =>
    refine ⟨fun h => .inr ⟨rfl, (ok.inj h).symm⟩, fun h => ?_⟩
    rcases h with ⟨v, hv, -⟩ | ⟨-, rfl⟩
    · cases hv
    · rfl
  | some f =>
    refine within_eq_ok.trans ⟨fun h => .inl ⟨f.2, rfl, h⟩, fun h => ?_⟩
    rcases h with ⟨v, hv, h⟩ | ⟨hnone, -⟩
    · exact Option.some.inj hv ▸ h
    · cases hnone

theorem field_of (P : α → Prop) (h : field fields key default read = .ok a) (hdefault : P default)
    (hread : ∀ {v a}, read v = .ok a → P a) : P a := by
  rcases field_eq_ok.mp h with ⟨v, -, hv⟩ | ⟨-, rfl⟩
  · exact hread hv
  · exact hdefault

theorem record_eq_ok {kind : FaultKind} {read : List (Text × Json) → Checked α} :
    record kind read v = .ok a ↔ ∃ fields, v = .obj fields ∧ read fields = .ok a := by
  cases v with
  | obj fields => exact ⟨fun h => ⟨fields, rfl, h⟩, fun ⟨fields', e, h⟩ => Json.obj.inj e ▸ h⟩
  | _ => exact ⟨fun h => (nomatch h), fun ⟨fields, e, _⟩ => nomatch e⟩

theorem ofName?_eq_some {t : Text} {w : ScriptVersion} :
    ScriptVersion.ofName? t = some w ↔ t = w.name.toList := by
  constructor
  · intro h
    rw [ScriptVersion.ofName?] at h
    have hname := List.find?_some h
    exact (beq_iff_eq.mp hname).symm
  · rintro rfl
    cases w <;> decide

theorem version_eq_ok {w : ScriptVersion} : version v = .ok w ↔ v = .ofString w.name := by
  cases v with
  | str t =>
    rw [version, Json.ofString, Json.str.injEq, ← ofName?_eq_some]
    cases ScriptVersion.ofName? t with
    | none => exact ⟨fun h => (nomatch h), fun h => nomatch h⟩
    | some w' => exact ⟨fun h => congrArg some (ok.inj h), fun h => congrArg ok (Option.some.inj h)⟩
  | _ => exact ⟨fun h => (nomatch h), fun h => nomatch h⟩

theorem nullable_eq_ok {found : Option α} : nullable read v = .ok found ↔
    v = .null ∧ found = none ∨ v ≠ .null ∧ ∃ a, read v = .ok a ∧ found = some a := by
  unfold nullable
  split
  · refine ⟨fun h => .inl ⟨rfl, (ok.inj h).symm⟩, fun h => ?_⟩
    rcases h with ⟨-, rfl⟩ | ⟨hnull, -⟩
    · rfl
    · exact absurd rfl hnull
  · next hnull =>
    rw [map_eq_ok]
    refine ⟨fun ⟨a, ha, hfound⟩ => .inr ⟨hnull, a, ha, hfound.symm⟩, fun h => ?_⟩
    rcases h with ⟨e, -⟩ | ⟨-, a, ha, hfound⟩
    · exact absurd e hnull
    · exact ⟨a, ha, hfound.symm⟩

theorem le_of_natIn {low : Nat} {high : Option Nat} {n : Nat} (h : natIn low high v = .ok n) :
    low ≤ n ∧ ∀ bound ∈ high, n ≤ bound := by
  obtain ⟨i, hi, rfl⟩ : ∃ i : Int, _ ∧ i.toNat = n := map_eq_ok.mp h
  obtain ⟨hi, hlow⟩ := require_eq_ok.mp hi
  obtain ⟨-, hhigh⟩ := require_eq_ok.mp hi
  have hlow : (low : Int) ≤ i := of_decide_eq_true hlow
  refine ⟨by omega, fun bound hbound => ?_⟩
  have hbound : i ≤ (bound : Int) := by
    rw [Option.mem_def.mp hbound] at hhigh
    exact of_decide_eq_true hhigh
  omega

theorem not_le_of_positive {x : Float} (h : positive v = .ok x) : ¬ x ≤ 0 := by
  obtain ⟨-, hx⟩ := require_eq_ok.mp h
  simpa using hx

end Read

theorem Reading.standard_sound : Reading.standard.Sound :=
  ⟨Read.le_of_natIn, Read.not_le_of_positive, fun _ => rfl⟩

end PineTools
