import PineTools.Validate.Budget

namespace PineTools

namespace Clock

variable {τ κ : Type} [Clock κ τ]

def after (k : κ) : Nat → κ
  | 0 => k
  | n + 1 => after (read k).2 n

/-- What a clock shows after some readings. -/
def reading (k : κ) (n : Nat) : τ := (read (after k n)).1

theorem after_add (k : κ) (m n : Nat) : after (after k m) n = after k (m + n) := by
  induction m generalizing k with
  | zero => rw [after, Nat.zero_add]
  | succ m ih => rw [after, ih, Nat.add_right_comm, after]

theorem reading_after (k : κ) (m n : Nat) : reading (after k m) n = reading k (m + n) := by
  rw [reading, reading, after_add]

end Clock

end PineTools
