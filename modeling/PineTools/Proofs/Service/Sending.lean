import PineTools.Service.Framework

/-! What the service answers with can be sent, whatever it has read or been told. -/
namespace PineTools.Service

namespace Sendable

@[simp]
theorem of_str (t : Text) : Sendable (.str t) := .str t

@[simp]
theorem of_bool (b : Bool) : Sendable (.bool b) := .bool b

@[simp]
theorem ofString (s : String) : Sendable (.ofString s) := .str s.toList

@[simp]
theorem ofNat (n : Nat) : Sendable (.ofNat n) := .int n

theorem ofFields {fields : List (String × Json)} (h : ∀ f ∈ fields, Sendable f.2) :
    Sendable (.ofFields fields) := by
  refine .obj fun f hf => ?_
  obtain ⟨g, hg, rfl⟩ := List.mem_map.mp hf
  exact h g hg

variable {α : Type} {write : α → Json} (h : ∀ a, Sendable (write a))
include h

theorem ofOption (a : Option α) : Sendable (.ofOption write a) := by
  cases a with
  | none => exact .null
  | some a => exact h a

theorem ofList (items : List α) : Sendable (.ofList write items) := by
  refine .arr fun v hv => ?_
  obtain ⟨a, -, rfl⟩ := List.mem_map.mp hv
  exact h a

end Sendable

theorem sendable_diagnostic (d : Diagnostic) : Sendable d.toJson :=
  .ofFields (by simp [Sendable.ofOption])

theorem sendable_validation (r : ValidationResult) : Sendable r.toJson :=
  .ofFields (by simp [Sendable.ofList, sendable_diagnostic])

theorem sendable_fix (r : Repair.FixResult) : Sendable r.toJson :=
  .ofFields (by simp [Sendable.ofList, Sendable.ofOption])

theorem sendable_format (r : Layout.FormatResult) : Sendable r.toJson :=
  .ofFields (by simp [Sendable.ofList, sendable_diagnostic])

theorem sendable_record (r : History.Record) : Sendable r.toJson :=
  .ofFields (by simp [Sendable.ofOption])

theorem sendable_of_map {α : Type} {made : Except Failure α} {write : α → Json}
    (h : ∀ a, Sendable (write a)) {value : Json} (hvalue : made.map write = .ok value) :
    Sendable value := by
  cases made with
  | error failure => cases hvalue
  | ok a =>
    cases hvalue
    exact h a

end PineTools.Service
