import MiddleEnd.Operator

/-!
Contract: three-address code.

Code is a flat list of instructions over variables and numbered temporaries, with symbolic labels
as jump targets. A list need not be well formed: a label may be defined twice or not at all, and an
empty operand may stand anywhere.

Owns: slots, operands, destinations, labels, instructions, and the text of each.
Does not own: the listing of whole code (`MiddleEnd.Code.Listing`) and the numbering of fresh
temporaries and labels (`MiddleEnd.Code.NameSupply`).
-/

namespace MiddleEnd

/-- A compiler-generated variable, known by its number. -/
structure Temp where
  index : UInt32
deriving DecidableEq, Repr, Inhabited

/-- A place that holds a value while code runs. Variables and temporaries never overlap, also when
a variable is spelled like a temporary. -/
inductive Slot where
  | var (name : String)
  | temp (temporary : Temp)
deriving DecidableEq, Repr, Inhabited

/-- What an instruction reads: a literal, a slot, or nothing. -/
inductive Operand where
  | const (value : Int64)
  | slot (place : Slot)
  | empty
deriving DecidableEq, Repr, Inhabited

/-- What an assignment writes: a slot, the return value, or the next outgoing parameter. The last
two are only ever written. -/
inductive Dest where
  | slot (place : Slot)
  | ret
  | param
deriving DecidableEq, Repr, Inhabited

/-- A jump target: a numbered block or the entry of a function. -/
inductive Label where
  | block (index : UInt32)
  | function (name : String)
deriving DecidableEq, Repr, Inhabited

/-- One instruction of three-address code. -/
inductive Instruction where
  | assign (dest : Dest) (value : Operand)
  | binary (dest : Temp) (op : Operator) (left right : Operand)
  | label (name : Label)
  | goto (target : Label)
  | ifFalseGoto (cond : Operand) (target : Label)
deriving DecidableEq, Repr, Inhabited

/-- Code is a list of instructions, run from the first one on. -/
abbrev Code := List Instruction

namespace Temp

/-- A temporary is written as `t` and its number. -/
def render (temp : Temp) : String := "t" ++ toString temp.index.toNat

end Temp

namespace Slot

/-- A variable is written as its name, a temporary as its number. -/
def render : Slot → String
  | var name => name
  | temp temporary => temporary.render

end Slot

namespace Operand

/-- The empty operand has an empty text. -/
def render : Operand → String
  | const value => toString value.toInt
  | slot place => place.render
  | empty => ""

end Operand

namespace Dest

/-- The two write-only destinations are written as words. -/
def render : Dest → String
  | slot place => place.render
  | ret => "return"
  | param => "param"

/-- The operand that reads back what was written; write-only destinations have none. -/
def operand? : Dest → Option Operand
  | slot place => some (.slot place)
  | ret => none
  | param => none

end Dest

namespace Label

/-- Block labels are written as `L` and a number, function labels as `func_` and the name. -/
def render : Label → String
  | block index => "L" ++ toString index.toNat
  | function name => "func_" ++ name

end Label

namespace Instruction

/-- The text of one instruction, without its place in the code. -/
def render : Instruction → String
  | assign dest .empty => dest.render ++ " ="
  | assign dest value => dest.render ++ " = " ++ value.render
  | binary dest op left right =>
      dest.render ++ " = " ++ left.render ++ " " ++ op.render ++ " " ++ right.render
  | label name => name.render ++ ":"
  | goto target => "goto " ++ target.render
  | ifFalseGoto cond target => "if !" ++ cond.render ++ " goto " ++ target.render

/-- Whether the instruction sets the return value, which ends the function. -/
def isReturn : Instruction → Bool
  | assign .ret _ => true
  | _ => false

/-- The label that a jump may continue at. -/
def jumpTarget? : Instruction → Option Label
  | goto target => some target
  | ifFalseGoto _ target => some target
  | _ => none

/-- The destination that the instruction writes. -/
def dest? : Instruction → Option Dest
  | assign dest _ => some dest
  | binary dest _ _ _ => some (.slot (.temp dest))
  | _ => none

end Instruction

end MiddleEnd
