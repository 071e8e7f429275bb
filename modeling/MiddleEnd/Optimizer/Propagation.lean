import MiddleEnd.Code.Instruction

/-!
Contract: replacing reads of slots by literals.

The pass goes through the code once, in the order of the text. An assignment of a literal to a slot
is remembered for good, until another literal is assigned to the same slot; a write of anything else
does not forget it. Only literals of the code as given are remembered, not those that a replacement
has just produced.

Owns: the literals known at each instruction, and the replacement.
Does not own: control flow, which the pass does not look at.
-/

namespace MiddleEnd

/-- The literals known for slots, the latest first. -/
abbrev Literals := List (Slot × Int64)

namespace Operand

/-- The operand with a known literal in place of a slot. -/
def substitute (known : Literals) : Operand → Operand
  | slot place =>
      match known.lookup place with
      | some value => const value
      | none => slot place
  | other => other

end Operand

namespace Instruction

/-- The instruction with known literals in place of the slots that it reads. -/
def substitute (known : Literals) : Instruction → Instruction
  | assign dest value => assign dest (value.substitute known)
  | binary dest op left right => binary dest op (left.substitute known) (right.substitute known)
  | ifFalseGoto cond target => ifFalseGoto (cond.substitute known) target
  | other => other

/-- What is known after an instruction. -/
def learn (known : Literals) : Instruction → Literals
  | assign (.slot place) (.const value) => (place, value) :: known
  | _ => known

end Instruction

namespace Code

/-- Propagate literals, given those known before the first instruction. -/
def propagateFrom (known : Literals) : Code → Code
  | [] => []
  | instruction :: rest =>
      instruction.substitute known :: propagateFrom (instruction.learn known) rest

/-- Propagate literals through code. -/
def propagate (code : Code) : Code := code.propagateFrom []

end Code

end MiddleEnd
