import MiddleEnd.Operator
import MiddleEnd.Position

/-!
Contract: the tree form of a program.

A program is a list of functions, a function body a list of statements. Nothing here is checked:
names may be undeclared, empty or declared twice, and types are words that nobody interprets.

Owns: identifiers, expressions, statements, functions and programs.
Does not own: scoping (`MiddleEnd.Analysis`) and code (`MiddleEnd.Code`).
-/

namespace MiddleEnd

/-- A name as it is written at one place of the source. -/
structure Ident where
  name : String
  position : Position
deriving DecidableEq, Repr, Inhabited

/-- An expression. Parentheses are kept, since the tree records what was written. -/
inductive Expr where
  | binary (op : Operator) (left right : Expr)
  | ident (name : Ident)
  | int (value : Int64)
  | paren (inner : Expr)
  | call (callee : Ident) (args : List Expr)
deriving Repr, Inhabited

/-- A variable declaration, with an initial value if one was written. -/
structure Declaration where
  name : Ident
  type : String
  constant : Bool
  init : Option Expr
deriving Repr, Inhabited

/-- An assignment of a value to a name. -/
structure Assignment where
  target : Ident
  value : Expr
deriving Repr, Inhabited

/-- What a `for` loop does before its first test. -/
inductive LoopInit where
  | declare (declaration : Declaration)
  | assign (assignment : Assignment)
deriving Repr, Inhabited

/-- A statement. A conditional without an `else` differs from one whose `else` block is empty. -/
inductive Stmt where
  | declare (declaration : Declaration)
  | assign (assignment : Assignment)
  | branch (cond : Expr) (thenBlock : List Stmt) (elseBlock : Option (List Stmt))
  | whileLoop (cond : Expr) (body : List Stmt)
  | forLoop (init : LoopInit) (cond : Expr) (update : Assignment) (body : List Stmt)
  | ret (value : Option Expr)
  | call (callee : Ident) (args : List Expr)
  | block (stmts : List Stmt)
deriving Repr, Inhabited

/-- A formal parameter of a function. -/
structure Parameter where
  name : Ident
  type : String
deriving DecidableEq, Repr, Inhabited

/-- A function declaration. -/
structure FunctionDecl where
  name : Ident
  returnType : String
  params : List Parameter
  body : List Stmt
deriving Repr, Inhabited

/-- A whole program: its functions in source order. -/
structure Program where
  functions : List FunctionDecl
deriving Repr, Inhabited

end MiddleEnd
