import MiddleEnd.Code.Instruction

/-!
Contract: dropping assignments of a slot to itself.

Owns: the elimination of self-assignments.
-/

namespace MiddleEnd

/-- Whether the instruction assigns a slot to itself. -/
def Instruction.isSelfAssignment : Instruction → Bool
  | assign dest value => dest.operand? == some value
  | _ => false

/-- The code without its self-assignments. -/
def Code.dropSelfAssignments (code : Code) : Code :=
  code.filter fun instruction => !instruction.isSelfAssignment

end MiddleEnd
