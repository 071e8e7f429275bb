import MiddleEnd.Optimizer.Reachability

/-!
Contract: dropping instructions that are never reached.

Owns: the elimination of unreachable code.
Does not own: reachability itself (`MiddleEnd.Optimizer.Reachability`).
-/

namespace MiddleEnd

namespace Code

/-- The instructions whose indices are kept, where the first instruction stands at `index`. -/
def keepFrom (kept : List Nat) (index : Nat) : Code → Code
  | [] => []
  | instruction :: rest =>
      if index ∈ kept then instruction :: keepFrom kept (index + 1) rest
      else keepFrom kept (index + 1) rest

/-- The reachable instructions, in order. -/
def eliminateDead (code : Code) (entry : String) : Code :=
  keepFrom (code.reachable entry) 0 code

end Code

end MiddleEnd
