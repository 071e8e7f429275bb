import MiddleEnd.Code.Instruction
import MiddleEnd.Json.Tree

/-!
Contract: the JSON form of three-address code.

A slot has the same form wherever it stands. A destination and an operand add their own forms to
those of a slot, with no variant around it.

Owns: the JSON form of labels, destinations, operands, instructions and lists of them.
Does not own: the JSON form of operators, which code shares with trees.
-/

namespace MiddleEnd

/-- A temporary is its bare number. -/
def Temp.toJson (temp : Temp) : Json := .int temp.index.toNat

def Temp.ofJson? (json : Json) : Option Temp := json.uint32?.map Temp.mk

def Label.toJson : Label → Json
  | .block index => .obj [("Block", .int index.toNat)]
  | .function name => .obj [("Function", .str name)]

def Label.ofJson? (json : Json) : Option Label := do
  let (kind, content) ← json.variant?
  match kind with
  | "Block" => return .block (← content.val.uint32?)
  | "Function" => return .function (← content.val.string?)
  | _ => none

def Slot.toJson : Slot → Json
  | .var name => .obj [("Var", .str name)]
  | .temp temporary => .obj [("Temp", temporary.toJson)]

def Slot.ofJson? (json : Json) : Option Slot := do
  let (kind, content) ← json.variant?
  match kind with
  | "Var" => return .var (← content.val.string?)
  | "Temp" => return .temp (← Temp.ofJson? content.val)
  | _ => none

/-- A destination is a slot or one of two bare names. -/
def Dest.toJson : Dest → Json
  | .slot place => place.toJson
  | .ret => .str "Return"
  | .param => .str "Param"

def Dest.ofJson? (json : Json) : Option Dest :=
  match json.bareVariant? with
  | some "Return" => some .ret
  | some "Param" => some .param
  | _ => (Slot.ofJson? json).map .slot

/-- An operand is a literal, a slot or the bare name of the empty operand. -/
def Operand.toJson : Operand → Json
  | .const value => .obj [("Const", .int value.toInt)]
  | .slot place => place.toJson
  | .empty => .str "Empty"

def Operand.constOfJson? (json : Json) : Option Operand := do
  let (kind, content) ← json.variant?
  match kind with
  | "Const" => return .const (← content.val.int64?)
  | _ => none

def Operand.ofJson? (json : Json) : Option Operand :=
  match json.bareVariant? with
  | some "Empty" => some .empty
  | _ => (Operand.constOfJson? json).or ((Slot.ofJson? json).map .slot)

def Instruction.toJson : Instruction → Json
  | .assign dest value =>
      .obj [("Assign", .obj [("dest", dest.toJson), ("value", value.toJson)])]
  | .binary dest op left right =>
      .obj [("BinaryOp", .obj [("dest", dest.toJson), ("op", op.toJson), ("left", left.toJson),
        ("right", right.toJson)])]
  | .label name => .obj [("Label", name.toJson)]
  | .goto target => .obj [("Goto", target.toJson)]
  | .ifFalseGoto cond target =>
      .obj [("IfFalseGoto", .obj [("cond", cond.toJson), ("label", target.toJson)])]

def Instruction.ofJson? (json : Json) : Option Instruction := do
  let (kind, content) ← json.variant?
  match kind with
  | "Assign" =>
      let dest ← content.val.member? "dest"
      let value ← content.val.member? "value"
      return .assign (← Dest.ofJson? dest.val) (← Operand.ofJson? value.val)
  | "BinaryOp" =>
      let dest ← content.val.member? "dest"
      let op ← content.val.member? "op"
      let left ← content.val.member? "left"
      let right ← content.val.member? "right"
      return .binary (← Temp.ofJson? dest.val) (← Operator.ofJson? op.val)
        (← Operand.ofJson? left.val) (← Operand.ofJson? right.val)
  | "Label" => return .label (← Label.ofJson? content.val)
  | "Goto" => return .goto (← Label.ofJson? content.val)
  | "IfFalseGoto" =>
      let cond ← content.val.member? "cond"
      let target ← content.val.member? "label"
      return .ifFalseGoto (← Operand.ofJson? cond.val) (← Label.ofJson? target.val)
  | _ => none

def Code.toJson (code : Code) : Json := .arr (code.map Instruction.toJson)

def Code.ofJson? (json : Json) : Option Code := json.list? Instruction.ofJson?

end MiddleEnd
