/-!
Contract: the binary operators that trees and instructions share.

Owns: the thirteen operators, their text, and which of them are arithmetic.
Does not own: what an operator computes (`MiddleEnd.Optimizer.Arithmetic` owns the values that are
known before the program runs).
-/

namespace MiddleEnd

/-- A binary operator of the source language. -/
inductive Operator where
  | add
  | sub
  | mul
  | div
  | rem
  | eq
  | ne
  | lt
  | le
  | gt
  | ge
  | and
  | or
deriving DecidableEq, Repr, Inhabited

namespace Operator

/-- The operator as it stands between its operands. -/
def render : Operator → String
  | add => "+"
  | sub => "-"
  | mul => "*"
  | div => "/"
  | rem => "%"
  | eq => "=="
  | ne => "!="
  | lt => "<"
  | le => "<="
  | gt => ">"
  | ge => ">="
  | and => "&&"
  | or => "||"

/-- The arithmetic operators yield numbers; the others yield truth values. -/
def isArithmetic : Operator → Bool
  | add | sub | mul | div | rem => true
  | _ => false

end Operator

end MiddleEnd
