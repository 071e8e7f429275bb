import MiddleEnd.Code.NameSupply
import MiddleEnd.Symbols.Table
import MiddleEnd.Tree.Basic

/-!
Contract: from trees to three-address code.

An expression becomes code that leaves its value in an operand; a statement becomes code. Operands
are evaluated from left to right, and each operation and each call takes one fresh temporary, after
those of its operands. Branches and loops take two fresh block labels each. A call passes its
arguments as outgoing parameters and has no instruction of its own; its result is a temporary that
nothing writes.

Every function takes the name supply where the code before it left it and returns the supply for
the code after it, so code of consecutive pieces is joined by appending.

Owns: the code of each kind of expression, statement, function and program.
Does not own: whether names are declared. An unknown name is lowered as it is written.
-/

namespace MiddleEnd

namespace Lowering

/-- Code, and the names that are left for the code after it. -/
structure Fragment where
  code : Code
  names : NameSupply
deriving DecidableEq, Repr, Inhabited

/-- Code that leaves a value in an operand. -/
structure Value extends Fragment where
  operand : Operand
deriving DecidableEq, Repr, Inhabited

/-- The name that a use in a function lowers to: that of the symbol it resolves to in the function
or else in the global scope. -/
def resolve (table : Table) (scope : String) (ident : Ident) : String :=
  match (table.lookupIn scope ident.name).or (table.lookupIn globalScope ident.name) with
  | some symbol => symbol.name
  | none => ident.name

mutual

/-- Lower an expression. Names and literals need no code. -/
def lowerExpr (table : Table) (scope : String) (names : NameSupply) : Expr → Value
  | .binary op left right =>
      let first := lowerExpr table scope names left
      let second := lowerExpr table scope first.names right
      let result := second.names.nextTemp
      { code := first.code ++ second.code ++ [.binary result op first.operand second.operand]
        names := second.names.takeTemp
        operand := .slot (.temp result) }
  | .ident name =>
      { code := [], names, operand := .slot (.var (resolve table scope name)) }
  | .int value => { code := [], names, operand := .const value }
  | .paren inner => lowerExpr table scope names inner
  | .call _ args =>
      let passed := lowerArgs table scope names args
      { code := passed.code
        names := passed.names.takeTemp
        operand := .slot (.temp passed.names.nextTemp) }

/-- Lower the arguments of a call: each is passed right after it has been evaluated. -/
def lowerArgs (table : Table) (scope : String) (names : NameSupply) : List Expr → Fragment
  | [] => { code := [], names }
  | arg :: rest =>
      let value := lowerExpr table scope names arg
      let others := lowerArgs table scope value.names rest
      { code := value.code ++ [.assign .param value.operand] ++ others.code
        names := others.names }

end

/-- Lower an assignment of an expression to a name. -/
def lowerStore (table : Table) (scope : String) (names : NameSupply) (target : Ident)
    (expr : Expr) : Fragment :=
  let value := lowerExpr table scope names expr
  { code := value.code ++ [.assign (.slot (.var (resolve table scope target))) value.operand]
    names := value.names }

/-- Lower a declaration. Without an initial value it needs no code. -/
def lowerDeclaration (table : Table) (scope : String) (names : NameSupply)
    (declaration : Declaration) : Fragment :=
  match declaration.init with
  | none => { code := [], names }
  | some init => lowerStore table scope names declaration.name init

/-- Lower an assignment. -/
def lowerAssignment (table : Table) (scope : String) (names : NameSupply)
    (assignment : Assignment) : Fragment :=
  lowerStore table scope names assignment.target assignment.value

/-- Lower the start of a loop. -/
def lowerInit (table : Table) (scope : String) (names : NameSupply) : LoopInit → Fragment
  | .declare declaration => lowerDeclaration table scope names declaration
  | .assign assignment => lowerAssignment table scope names assignment

/-- Lower a return. Without a value it returns the empty operand. -/
def lowerReturn (table : Table) (scope : String) (names : NameSupply) : Option Expr → Fragment
  | none => { code := [.assign .ret .empty], names }
  | some expr =>
      let value := lowerExpr table scope names expr
      { code := value.code ++ [.assign .ret value.operand], names := value.names }

/-- The code of a branch, from its parts: both labels are defined even if there is nothing after
the first. -/
def branchCode (cond : Value) (elseLabel endLabel : Label) (thenCode elseCode : Code) : Code :=
  cond.code ++ [.ifFalseGoto cond.operand elseLabel] ++ thenCode ++
    [.goto endLabel, .label elseLabel] ++ elseCode ++ [.label endLabel]

/-- The code of a loop, from its parts: the condition is evaluated anew each time around. -/
def loopCode (cond : Value) (startLabel endLabel : Label) (bodyCode : Code) : Code :=
  [.label startLabel] ++ cond.code ++ [.ifFalseGoto cond.operand endLabel] ++ bodyCode ++
    [.goto startLabel, .label endLabel]

mutual

/-- Lower a statement. -/
def lowerStmt (table : Table) (scope : String) (names : NameSupply) : Stmt → Fragment
  | .declare declaration => lowerDeclaration table scope names declaration
  | .assign assignment => lowerAssignment table scope names assignment
  | .branch cond thenBlock none =>
      let test := lowerExpr table scope names cond
      let elseLabel := test.names.nextLabel
      let endLabel := test.names.takeLabel.nextLabel
      let first := lowerStmts table scope test.names.takeLabel.takeLabel thenBlock
      { code := branchCode test elseLabel endLabel first.code []
        names := first.names }
  | .branch cond thenBlock (some elseBlock) =>
      let test := lowerExpr table scope names cond
      let elseLabel := test.names.nextLabel
      let endLabel := test.names.takeLabel.nextLabel
      let first := lowerStmts table scope test.names.takeLabel.takeLabel thenBlock
      let second := lowerStmts table scope first.names elseBlock
      { code := branchCode test elseLabel endLabel first.code second.code
        names := second.names }
  | .whileLoop cond body =>
      let startLabel := names.nextLabel
      let endLabel := names.takeLabel.nextLabel
      let test := lowerExpr table scope names.takeLabel.takeLabel cond
      let inner := lowerStmts table scope test.names body
      { code := loopCode test startLabel endLabel inner.code
        names := inner.names }
  | .forLoop init cond update body =>
      let before := lowerInit table scope names init
      let startLabel := before.names.nextLabel
      let endLabel := before.names.takeLabel.nextLabel
      let test := lowerExpr table scope before.names.takeLabel.takeLabel cond
      let inner := lowerStmts table scope test.names body
      let after := lowerAssignment table scope inner.names update
      { code := before.code ++ loopCode test startLabel endLabel (inner.code ++ after.code)
        names := after.names }
  | .ret value => lowerReturn table scope names value
  | .call callee args => (lowerExpr table scope names (.call callee args)).toFragment
  | .block stmts => lowerStmts table scope names stmts

/-- Lower statements in order. -/
def lowerStmts (table : Table) (scope : String) (names : NameSupply) : List Stmt → Fragment
  | [] => { code := [], names }
  | stmt :: rest =>
      let first := lowerStmt table scope names stmt
      let others := lowerStmts table scope first.names rest
      { code := first.code ++ others.code, names := others.names }

end

/-- Lower a function: its entry label, then its body. Parameters need no code. -/
def lowerFunction (table : Table) (names : NameSupply) (function : FunctionDecl) : Fragment :=
  let body := lowerStmts table function.name.name names function.body
  { code := .label (.function function.name.name) :: body.code, names := body.names }

/-- Lower functions in order. -/
def lowerFunctions (table : Table) (names : NameSupply) : List FunctionDecl → Fragment
  | [] => { code := [], names }
  | function :: rest =>
      let first := lowerFunction table names function
      let others := lowerFunctions table first.names rest
      { code := first.code ++ others.code, names := others.names }

/-! ### Piecewise lowering -/

/-- A piece of a program outside any function. -/
inductive Piece where
  | stmt (stmt : Stmt)
  | expr (expr : Expr)
deriving Repr, Inhabited

/-- Lower one piece. Only an expression has a value. -/
def lowerPiece (table : Table) (names : NameSupply) : Piece → Fragment × Option Operand
  | .stmt stmt => (lowerStmt table globalScope names stmt, none)
  | .expr expr =>
      let value := lowerExpr table globalScope names expr
      (value.toFragment, some value.operand)

/-- Lower pieces in order; the values stand in the order of the pieces. -/
def lowerPieces (table : Table) (names : NameSupply) : List Piece → Fragment × List (Option Operand)
  | [] => ({ code := [], names }, [])
  | piece :: rest =>
      let (first, value) := lowerPiece table names piece
      let (others, values) := lowerPieces table first.names rest
      ({ code := first.code ++ others.code, names := others.names }, value :: values)

end Lowering

/-- Lower a program against a symbol table. -/
def Program.lower (program : Program) (table : Table) : Code :=
  (Lowering.lowerFunctions table .start program.functions).code

/-- Lower pieces and then a program, with one supply of names for all of it. -/
def Program.lowerAfter (program : Program) (table : Table) (pieces : List Lowering.Piece) :
    Code × List (Option Operand) :=
  let (before, values) := Lowering.lowerPieces table .start pieces
  (before.code ++ (Lowering.lowerFunctions table before.names program.functions).code, values)

end MiddleEnd
