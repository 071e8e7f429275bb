import MiddleEnd.Tree.Basic

/-!
Contract: trees put together by hand.

Trees made here have no source, so every identifier stands at the position `Position.nowhere`
unless one is given. Every type is `int`, and no declaration is constant.

Owns: one short constructor for each kind of tree.
-/

namespace MiddleEnd

namespace Shorthand

/-- The type of everything that is made here. -/
def intType : String := "int"

/-- An identifier without a source. -/
def ident (name : String) : Ident := ⟨name, Position.nowhere⟩

/-- An identifier at a line and a column. -/
def identAt (name : String) (line column : UInt32) : Ident := ⟨name, ⟨line, column⟩⟩

/-- A read of a name. -/
def var (name : String) : Expr := .ident (ident name)

/-- A literal. -/
def int (value : Int64) : Expr := .int value

/-- A parenthesized expression. -/
def paren (inner : Expr) : Expr := .paren inner

/-- An operation on two expressions. -/
def binary (op : Operator) (left right : Expr) : Expr := .binary op left right

/-- A call for its value. -/
def call (callee : String) (args : List Expr) : Expr := .call (ident callee) args

/-- A declaration of a variable. -/
def declaration (name : String) (init : Option Expr) : Declaration :=
  { name := ident name, type := intType, constant := false, init }

/-- An assignment to a name. -/
def assignment (target : String) (value : Expr) : Assignment := ⟨ident target, value⟩

/-- A declaration as a statement. -/
def declare (name : String) (init : Option Expr) : Stmt := .declare (declaration name init)

/-- An assignment as a statement. -/
def assign (target : String) (value : Expr) : Stmt := .assign (assignment target value)

/-- A conditional statement. -/
def branch (cond : Expr) (thenBlock : List Stmt) (elseBlock : Option (List Stmt)) : Stmt :=
  .branch cond thenBlock elseBlock

/-- A loop that runs while a condition holds. -/
def whileLoop (cond : Expr) (body : List Stmt) : Stmt := .whileLoop cond body

/-- A loop with a start and an update. -/
def forLoop (init : LoopInit) (cond : Expr) (update : Assignment) (body : List Stmt) : Stmt :=
  .forLoop init cond update body

/-- A return, with or without a value. -/
def ret (value : Option Expr) : Stmt := .ret value

/-- A call as a statement. -/
def callStmt (callee : String) (args : List Expr) : Stmt := .call (ident callee) args

/-- A nested block. -/
def block (stmts : List Stmt) : Stmt := .block stmts

/-- A function whose parameters have the given names. -/
def function (name : String) (params : List String) (body : List Stmt) : FunctionDecl :=
  { name := ident name
    returnType := intType
    params := params.map fun param => ⟨ident param, intType⟩
    body }

/-- A program of the given functions. -/
def program (functions : List FunctionDecl) : Program := ⟨functions⟩

end Shorthand

end MiddleEnd
