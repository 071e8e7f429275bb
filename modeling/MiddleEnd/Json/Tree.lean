import MiddleEnd.Json.Value
import MiddleEnd.Tree.Basic

/-!
Contract: the JSON form of program trees.

Each type has an encoder `toJson` and a decoder `ofJson?`. A type with several forms is a variant
named for the form, which stands bare if it has no content; any other type is a record of its
fields. Decoders ignore keys they do not know.

Owns: the JSON form of positions, identifiers, operators, expressions, statements and programs.
Does not own: the JSON form of code and symbols.
-/

namespace MiddleEnd

/-! ### Positions, identifiers, operators -/

def Position.toJson (position : Position) : Json :=
  .obj [("line", .int position.line.toNat), ("column", .int position.column.toNat)]

def Position.ofJson? (json : Json) : Option Position := do
  let line ← json.field? ["line", "column"] "line"
  let column ← json.field? ["line", "column"] "column"
  return ⟨← line.val.uint32?, ← column.val.uint32?⟩

def Ident.toJson (ident : Ident) : Json :=
  .obj [("name", .str ident.name), ("pos", ident.position.toJson)]

def Ident.ofJson? (json : Json) : Option Ident := do
  let name ← json.field? ["name", "pos"] "name"
  let position ← json.field? ["name", "pos"] "pos"
  return ⟨← name.val.string?, ← Position.ofJson? position.val⟩

def Operator.key : Operator → String
  | .add => "Add"
  | .sub => "Sub"
  | .mul => "Mul"
  | .div => "Div"
  | .rem => "Rem"
  | .eq => "Eq"
  | .ne => "Ne"
  | .lt => "Lt"
  | .le => "Le"
  | .gt => "Gt"
  | .ge => "Ge"
  | .and => "And"
  | .or => "Or"

def Operator.ofKey? : String → Option Operator
  | "Add" => some .add
  | "Sub" => some .sub
  | "Mul" => some .mul
  | "Div" => some .div
  | "Rem" => some .rem
  | "Eq" => some .eq
  | "Ne" => some .ne
  | "Lt" => some .lt
  | "Le" => some .le
  | "Gt" => some .gt
  | "Ge" => some .ge
  | "And" => some .and
  | "Or" => some .or
  | _ => none

def Operator.toJson (op : Operator) : Json := .str op.key

def Operator.ofJson? (json : Json) : Option Operator := json.bareVariant?.bind Operator.ofKey?

/-! ### Expressions -/

mutual

def Expr.toJson : Expr → Json
  | .binary op left right =>
      .obj [("Binary",
        .obj [("op", op.toJson), ("left", left.toJson), ("right", right.toJson)])]
  | .ident name => .obj [("Ident", name.toJson)]
  | .int value => .obj [("Int", .int value.toInt)]
  | .paren inner => .obj [("Paren", inner.toJson)]
  | .call callee args =>
      .obj [("Call", .obj [("callee", callee.toJson), ("args", .arr (Expr.listToJson args))])]

def Expr.listToJson : List Expr → List Json
  | [] => []
  | expr :: rest => expr.toJson :: Expr.listToJson rest

end

mutual

def Expr.ofJson? (json : Json) : Option Expr := do
  let (kind, ⟨content, _⟩) ← json.variant?
  match kind with
  | "Binary" =>
      let op ← content.member? "op"
      let ⟨left, _⟩ ← content.member? "left"
      let ⟨right, _⟩ ← content.member? "right"
      return .binary (← Operator.ofJson? op.val) (← Expr.ofJson? left) (← Expr.ofJson? right)
  | "Ident" => return .ident (← Ident.ofJson? content)
  | "Int" => return .int (← content.int64?)
  | "Paren" => return .paren (← Expr.ofJson? content)
  | "Call" =>
      let (callee, args) ← Expr.callOfJson? content
      return .call callee args
  | _ => none
termination_by sizeOf json

/-- Read the callee and the arguments of a call. -/
def Expr.callOfJson? (json : Json) : Option (Ident × List Expr) := do
  let callee ← json.field? ["callee", "args"] "callee"
  let ⟨args, _⟩ ← json.field? ["callee", "args"] "args"
  let items ← args.items?
  return (← Ident.ofJson? callee.val, ← items.mapM fun ⟨item, _⟩ => Expr.ofJson? item)
termination_by sizeOf json

end

/-! ### Declarations and assignments -/

/-- An absent value is a null. -/
def Expr.optionToJson : Option Expr → Json
  | none => .null
  | some value => value.toJson

/-- Read an expression that may be absent. -/
def Expr.optionOfJson? {whole : Json} : Option whole.Part → Option (Option Expr)
  | none => some none
  | some part => (Expr.ofJson? part.val).map some

def Declaration.toJson (declaration : Declaration) : Json :=
  .obj [("name", declaration.name.toJson), ("ty", .str declaration.type),
    ("constant", .bool declaration.constant), ("init", Expr.optionToJson declaration.init)]

def Declaration.fields : List String := ["name", "ty", "constant", "init"]

def Declaration.ofJson? (json : Json) : Option Declaration := do
  let name ← json.field? fields "name"
  let type ← json.field? fields "ty"
  let constant ← json.field? fields "constant"
  let init ← json.optionalField? fields "init"
  return ⟨← Ident.ofJson? name.val, ← type.val.string?, ← constant.val.bool?,
    ← Expr.optionOfJson? init⟩

def Assignment.toJson (assignment : Assignment) : Json :=
  .obj [("target", assignment.target.toJson), ("value", assignment.value.toJson)]

def Assignment.ofJson? (json : Json) : Option Assignment := do
  let target ← json.field? ["target", "value"] "target"
  let value ← json.field? ["target", "value"] "value"
  return ⟨← Ident.ofJson? target.val, ← Expr.ofJson? value.val⟩

def LoopInit.toJson : LoopInit → Json
  | .declare declaration => .obj [("Decl", declaration.toJson)]
  | .assign assignment => .obj [("Assign", assignment.toJson)]

def LoopInit.ofJson? (json : Json) : Option LoopInit := do
  let (kind, content) ← json.variant?
  match kind with
  | "Decl" => return .declare (← Declaration.ofJson? content.val)
  | "Assign" => return .assign (← Assignment.ofJson? content.val)
  | _ => none

/-! ### Statements -/

/-- Statements that are already encoded, as a block. -/
def Json.block (stmts : List Json) : Json := .obj [("stmts", .arr stmts)]

mutual

def Stmt.toJson : Stmt → Json
  | .declare declaration => .obj [("VarDecl", declaration.toJson)]
  | .assign assignment => .obj [("Assign", assignment.toJson)]
  | .branch cond thenBlock none =>
      .obj [("If", .obj [("cond", cond.toJson),
        ("then_block", .block (Stmt.listToJson thenBlock)), ("else_block", .null)])]
  | .branch cond thenBlock (some elseBlock) =>
      .obj [("If", .obj [("cond", cond.toJson),
        ("then_block", .block (Stmt.listToJson thenBlock)),
        ("else_block", .block (Stmt.listToJson elseBlock))])]
  | .whileLoop cond body =>
      .obj [("While", .obj [("cond", cond.toJson), ("body", .block (Stmt.listToJson body))])]
  | .forLoop init cond update body =>
      .obj [("For", .obj [("init", init.toJson), ("cond", cond.toJson),
        ("update", update.toJson), ("body", .block (Stmt.listToJson body))])]
  | .ret value => .obj [("Return", Expr.optionToJson value)]
  | .call callee args =>
      .obj [("Call", .obj [("callee", callee.toJson), ("args", .arr (Expr.listToJson args))])]
  | .block stmts => .obj [("Block", .block (Stmt.listToJson stmts))]

def Stmt.listToJson : List Stmt → List Json
  | [] => []
  | stmt :: rest => stmt.toJson :: Stmt.listToJson rest

end

mutual

def Stmt.ofJson? (json : Json) : Option Stmt := do
  let (kind, ⟨content, _⟩) ← json.variant?
  match kind with
  | "VarDecl" => return .declare (← Declaration.ofJson? content)
  | "Assign" => return .assign (← Assignment.ofJson? content)
  | "If" =>
      let cond ← content.member? "cond"
      let ⟨thenBlock, _⟩ ← content.member? "then_block"
      let cond ← Expr.ofJson? cond.val
      let thenBlock ← Stmt.blockOfJson? thenBlock
      match content.optionalMember "else_block" with
      | none => return .branch cond thenBlock none
      | some ⟨elseBlock, _⟩ => return .branch cond thenBlock (some (← Stmt.blockOfJson? elseBlock))
  | "While" =>
      let cond ← content.member? "cond"
      let ⟨body, _⟩ ← content.member? "body"
      return .whileLoop (← Expr.ofJson? cond.val) (← Stmt.blockOfJson? body)
  | "For" =>
      let init ← content.member? "init"
      let cond ← content.member? "cond"
      let update ← content.member? "update"
      let ⟨body, _⟩ ← content.member? "body"
      return .forLoop (← LoopInit.ofJson? init.val) (← Expr.ofJson? cond.val)
        (← Assignment.ofJson? update.val) (← Stmt.blockOfJson? body)
  | "Return" =>
      match content with
      | .null => return .ret none
      | value => return .ret (some (← Expr.ofJson? value))
  | "Call" =>
      let (callee, args) ← Expr.callOfJson? content
      return .call callee args
  | "Block" => return .block (← Stmt.blockOfJson? content)
  | _ => none
termination_by sizeOf json

def Stmt.blockOfJson? (json : Json) : Option (List Stmt) := do
  let ⟨stmts, _⟩ ← json.field? ["stmts"] "stmts"
  let items ← stmts.items?
  items.mapM fun ⟨item, _⟩ => Stmt.ofJson? item
termination_by sizeOf json

end

/-! ### Functions and programs -/

def Parameter.toJson (parameter : Parameter) : Json :=
  .obj [("name", parameter.name.toJson), ("ty", .str parameter.type)]

def Parameter.ofJson? (json : Json) : Option Parameter := do
  let name ← json.field? ["name", "ty"] "name"
  let type ← json.field? ["name", "ty"] "ty"
  return ⟨← Ident.ofJson? name.val, ← type.val.string?⟩

def FunctionDecl.toJson (function : FunctionDecl) : Json :=
  .obj [("name", function.name.toJson), ("return_type", .str function.returnType),
    ("params", .arr (function.params.map Parameter.toJson)),
    ("body", .block (Stmt.listToJson function.body))]

def FunctionDecl.fields : List String := ["name", "return_type", "params", "body"]

def FunctionDecl.ofJson? (json : Json) : Option FunctionDecl := do
  let name ← json.field? fields "name"
  let returnType ← json.field? fields "return_type"
  let params ← json.field? fields "params"
  let body ← json.field? fields "body"
  return ⟨← Ident.ofJson? name.val, ← returnType.val.string?,
    ← params.val.list? Parameter.ofJson?, ← Stmt.blockOfJson? body.val⟩

def Program.toJson (program : Program) : Json :=
  .obj [("functions", .arr (program.functions.map FunctionDecl.toJson))]

def Program.ofJson? (json : Json) : Option Program := do
  let functions ← json.field? ["functions"] "functions"
  return ⟨← functions.val.list? FunctionDecl.ofJson?⟩

end MiddleEnd
