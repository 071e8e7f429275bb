import MiddleEnd.Operator

/-!
Contract: arithmetic on literals that is safe to do ahead of time.

`evaluate` works on 64-bit words and yields a word only where the operation neither overflows nor
divides by zero, so replacing an operation by its value never hides a fault.

Owns: the values of the arithmetic operators on literals.
Does not own: comparison and logic, which have no value ahead of time.
-/

namespace MiddleEnd

/-- The word that an operation gives, unless the operation goes wrong. -/
def checked (wrong : Bool) (word : Int64) : Option Int64 := if wrong then none else some word

/-- The value of an operator on two literals, if it has one. Division and remainder go toward zero;
neither has a value for a zero divisor, nor for the one pair whose quotient does not fit. -/
def evaluate (op : Operator) (left right : Int64) : Option Int64 :=
  match op with
  | .add => checked (left.toBitVec.saddOverflow right.toBitVec) (left + right)
  | .sub => checked (left.toBitVec.ssubOverflow right.toBitVec) (left - right)
  | .mul => checked (left.toBitVec.smulOverflow right.toBitVec) (left * right)
  | .div => checked (right == 0 || left.toBitVec.sdivOverflow right.toBitVec) (left / right)
  | .rem => checked (right == 0 || left.toBitVec.sdivOverflow right.toBitVec) (left % right)
  | _ => none

end MiddleEnd
