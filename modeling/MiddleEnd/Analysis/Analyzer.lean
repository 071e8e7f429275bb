import MiddleEnd.Analysis.Diagnostic
import MiddleEnd.Tree.Basic

/-!
Contract: declaring and resolving every name of a program.

The analyzer walks a program in source order. A function is declared in the global scope and opens
a scope of its own name for its parameters and its body; blocks open no scope. A declaration takes
effect after its initial value, and an error never stops the walk.

A variable counts as initialized from the first assignment met on the walk, whichever branch it
stands in. A read before that is reported once per variable.

Owns: the walk, and the symbols, errors and warnings that it leaves.
Does not own: the wording of reports (`MiddleEnd.Analysis.Diagnostic`).
-/

namespace MiddleEnd

/-- The outcome of analyzing a program. -/
structure Analysis where
  /-- Every declared symbol; only the global scope is active. -/
  table : Table
  /-- The errors, in the order of the walk. -/
  errors : List SemanticError
  /-- Uninitialized reads in the order of the walk, then unused symbols in order of declaration. -/
  warnings : List Warning
deriving Repr, Inhabited

namespace Analysis

/-- Whether the program must not be compiled. -/
def hasErrors (analysis : Analysis) : Bool := !analysis.errors.isEmpty

/-- The analysis so far, and the symbols whose uninitialized read is already reported. -/
structure State where
  table : Table
  errors : List SemanticError
  warnings : List Warning
  /-- The insertion order of each symbol that has been warned about. -/
  warned : List Nat
deriving Repr, Inhabited

namespace State

/-- The state before the first function. -/
def start : State := ⟨Table.start, [], [], []⟩

/-- Report an error. -/
def report (state : State) (error : SemanticError) : State :=
  { state with errors := state.errors ++ [error] }

/-- Declare a symbol in the current scope. -/
def declare (state : State) (symbol : Symbol) : State :=
  match state.table.insert symbol with
  | .ok table => { state with table }
  | .error clash => state.report (.redeclaration clash)

/-- Report a name that no active scope holds. -/
def undefined (state : State) (ident : Ident) : State :=
  state.report (.undefinedReference ident.name state.table.current ident.position)

/-- Resolve a name and change its symbol. -/
def resolve (state : State) (ident : Ident) (change : Symbol → Symbol) : State :=
  match state.table.lookup ident.name with
  | none => state.undefined ident
  | some _ => { state with table := state.table.modify ident.name change }

/-- Warn about an uninitialized read of a symbol, unless that has been done. -/
def warnUninitialized (state : State) (symbol : Symbol) (useSite : Position) : State :=
  if symbol.insertionOrder ∈ state.warned then
    state
  else
    { state with
      warnings := state.warnings ++ [.uninitialized symbol.name symbol.scope useSite]
      warned := symbol.insertionOrder :: state.warned }

/-- Read a name: its symbol is used, and a variable should have been initialized. -/
def read (state : State) (ident : Ident) : State :=
  match state.table.lookup ident.name with
  | none => state.undefined ident
  | some symbol =>
      let used := { state with table := state.table.modify ident.name Symbol.markUsed }
      if symbol.category = .variable ∧ symbol.isInitialized = false then
        used.warnUninitialized symbol ident.position
      else
        used

/-- Call a name: its symbol is used, whatever it is. -/
def callee (state : State) (ident : Ident) : State := state.resolve ident Symbol.markUsed

/-- Assign to a name: its symbol is initialized. -/
def target (state : State) (ident : Ident) : State := state.resolve ident Symbol.markInitialized

mutual

/-- Walk an expression. -/
def walkExpr (state : State) : Expr → State
  | .binary _ left right => (state.walkExpr left).walkExpr right
  | .ident name => state.read name
  | .int _ => state
  | .paren inner => state.walkExpr inner
  | .call name args => (state.callee name).walkExprs args

/-- Walk expressions from left to right. -/
def walkExprs (state : State) : List Expr → State
  | [] => state
  | expr :: rest => (state.walkExpr expr).walkExprs rest

end

/-- Walk an expression that may be absent. -/
def walkOption (state : State) : Option Expr → State
  | none => state
  | some expr => state.walkExpr expr

/-- Walk a declaration: its initial value comes before its name. -/
def walkDeclaration (state : State) (declaration : Declaration) : State :=
  (state.walkOption declaration.init).declare
    { name := declaration.name.name
      declaredType := declaration.type
      category := .variable
      declaredAt := declaration.name.position
      isConstant := declaration.constant
      isInitialized := declaration.init.isSome }

/-- Walk an assignment: its value comes before its target. -/
def walkAssignment (state : State) (assignment : Assignment) : State :=
  (state.walkExpr assignment.value).target assignment.target

/-- Walk the start of a loop. -/
def walkInit (state : State) : LoopInit → State
  | .declare declaration => state.walkDeclaration declaration
  | .assign assignment => state.walkAssignment assignment

mutual

/-- Walk a statement. -/
def walkStmt (state : State) : Stmt → State
  | .declare declaration => state.walkDeclaration declaration
  | .assign assignment => state.walkAssignment assignment
  | .branch cond thenBlock none => (state.walkExpr cond).walkStmts thenBlock
  | .branch cond thenBlock (some elseBlock) =>
      ((state.walkExpr cond).walkStmts thenBlock).walkStmts elseBlock
  | .whileLoop cond body => (state.walkExpr cond).walkStmts body
  | .forLoop init cond update body =>
      (((state.walkInit init).walkExpr cond).walkStmts body).walkAssignment update
  | .ret value => state.walkOption value
  | .call name args => (state.callee name).walkExprs args
  | .block stmts => state.walkStmts stmts

/-- Walk statements in order. -/
def walkStmts (state : State) : List Stmt → State
  | [] => state
  | stmt :: rest => (state.walkStmt stmt).walkStmts rest

end

/-- Make a scope current. -/
def enter (state : State) (scope : String) : State :=
  { state with table := state.table.enter scope }

/-- Leave the current scope. -/
def leave (state : State) : State := { state with table := state.table.leave }

/-- Declare a parameter. -/
def walkParameter (state : State) (parameter : Parameter) : State :=
  state.declare
    { name := parameter.name.name
      declaredType := parameter.type
      category := .parameter
      declaredAt := parameter.name.position
      isInitialized := true }

/-- Walk a function: declare it, then walk its parameters and its body in its own scope. -/
def walkFunction (state : State) (function : FunctionDecl) : State :=
  let declared := state.declare
    { name := function.name.name
      declaredType := function.returnType
      category := .function
      declaredAt := function.name.position
      isInitialized := true
      parameters := function.params.map Parameter.type }
  let inside := function.params.foldl walkParameter (declared.enter function.name.name)
  (inside.walkStmts function.body).leave

end State

/-- The warnings on symbols that were declared and never used; functions are exempt. -/
def unusedWarnings (table : Table) : List Warning :=
  (table.symbols.filter fun symbol => symbol.category != .function && !symbol.isUsed).map
    fun symbol => .unused symbol.name symbol.scope symbol.declaredAt

end Analysis

/-- Analyze a program. -/
def Program.analyze (program : Program) : Analysis :=
  let final := program.functions.foldl Analysis.State.walkFunction .start
  { table := final.table
    errors := final.errors
    warnings := final.warnings ++ Analysis.unusedWarnings final.table }

end MiddleEnd
