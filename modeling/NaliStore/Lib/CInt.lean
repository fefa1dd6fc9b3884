import Mathlib.Algebra.Group.Int.Defs
import Mathlib.Algebra.Group.Nat.Defs

/-!
# The `int` of C

Arithmetic in `int` is arithmetic in the integers as long as the results are between `-2 ^ 31`
and `2 ^ 31 - 1`, and anything may happen after a result that is not. An expression of type
`int` is a computation that faults then; the fault is that of the program at hand.
-/

namespace CInt

variable {ε : Type*} {fault : ε} {x : ℤ}

/-- The value of an expression of type `int`. -/
def int (fault : ε) (x : ℤ) : Except ε ℤ :=
  if -2 ^ 31 ≤ x ∧ x < 2 ^ 31 then .ok x else .error fault

theorem int_eq (hlo : -2 ^ 31 ≤ x) (hhi : x < 2 ^ 31) : int fault x = .ok x := if_pos ⟨hlo, hhi⟩

theorem int_of_le (h : 2 ^ 31 ≤ x) : int fault x = .error fault :=
  if_neg fun hx => absurd hx.2 (Int.not_lt.mpr h)

end CInt
