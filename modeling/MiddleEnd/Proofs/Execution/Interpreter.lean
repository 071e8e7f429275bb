import MiddleEnd.Proofs.Execution.Machine
import MiddleEnd.Tree.Basic

/-!
Contract: what trees mean, said on the trees.

An expression is evaluated eagerly and from left to right, `&&` and `||` included. A call passes
each argument right after it has been evaluated and then has one fixed value, since nobody answers
it. A statement changes variables, and a name is the same variable wherever it stands in a function:
blocks open no scope. A condition is true if it is not zero.

Loops may go on forever, so statements are executed with fuel: no loop goes around more often than
there is fuel, and what has happened by then is kept.

Owns: the evaluation of expressions and the execution of statements and functions.
Does not own: code, and what operators compute.
-/

namespace MiddleEnd

/-- The contents of all variables. -/
abbrev Vars := String → Int64

/-- The contents of the variables, and the parameters passed so far. -/
structure World where
  vars : Vars
  params : List Int64

def World.assign (world : World) (name : String) (value : Int64) : World :=
  { world with vars := fun other => if other = name then value else world.vars other }

/-! ### Expressions -/

/-- What an expression comes to: its value unless it trapped, and the parameters passed by then. -/
structure Evaluation where
  value : Option Int64
  params : List Int64

/-- Go on with the value, if there is one. -/
def Evaluation.andThen (first : Evaluation) (next : Int64 → List Int64 → Evaluation) :
    Evaluation :=
  match first.value with
  | some value => next value first.params
  | none => first

mutual

/-- Evaluate an expression after some parameters have been passed. A call has the value `unset`. -/
def Expr.eval (semantics : Semantics) (unset : Int64) :
    Expr → Vars → List Int64 → Evaluation
  | .binary op left right, vars, params =>
      (left.eval semantics unset vars params).andThen fun first params =>
        (right.eval semantics unset vars params).andThen fun second params =>
          ⟨semantics op first second, params⟩
  | .ident name, vars, params => ⟨some (vars name.name), params⟩
  | .int value, _, params => ⟨some value, params⟩
  | .paren inner, vars, params => inner.eval semantics unset vars params
  | .call _ args, vars, params => Expr.passAll semantics unset args vars params

/-- Evaluate and pass the arguments of a call. -/
def Expr.passAll (semantics : Semantics) (unset : Int64) :
    List Expr → Vars → List Int64 → Evaluation
  | [], _, params => ⟨some unset, params⟩
  | arg :: rest, vars, params =>
      (arg.eval semantics unset vars params).andThen fun value params =>
        Expr.passAll semantics unset rest vars (params ++ [value])

end

/-! ### Statements -/

/-- How a statement leaves the statements after it. -/
inductive Signal where
  | completed
  | returned (value : Option Int64)
  | trapped
  /-- A loop has gone around as often as there is fuel. -/
  | exhausted
deriving DecidableEq, Repr

/-- What a statement comes to. -/
structure Progress where
  signal : Signal
  world : World

/-- Go on if nothing prevents it. -/
def Progress.andThen (first : Progress) (next : World → Progress) : Progress :=
  match first.signal with
  | .completed => next first.world
  | _ => first

theorem Progress.andThen_completed (progress : Progress) :
    progress.andThen (fun world => ⟨.completed, world⟩) = progress := by
  obtain ⟨signal, world⟩ := progress
  cases signal <;> rfl

/-- Go on with what an expression came to, if it has a value. -/
def Evaluation.proceed (result : Evaluation) (vars : Vars) (next : Int64 → World → Progress) :
    Progress :=
  match result.value with
  | some value => next value ⟨vars, result.params⟩
  | none => ⟨.trapped, ⟨vars, result.params⟩⟩

section Statements

variable (semantics : Semantics) (unset : Int64)

/-- Evaluate an expression in a world and go on with its value. -/
def Expr.evalThen (expr : Expr) (next : Int64 → World → Progress) (world : World) : Progress :=
  (expr.eval semantics unset world.vars world.params).proceed world.vars next

def Expr.storeIn (expr : Expr) (target : Ident) : World → Progress :=
  expr.evalThen semantics unset fun value world => ⟨.completed, world.assign target.name value⟩

/-- A declaration without an initial value does nothing. -/
def Declaration.exec (declaration : Declaration) : World → Progress :=
  match declaration.init with
  | none => fun world => ⟨.completed, world⟩
  | some init => init.storeIn semantics unset declaration.name

def Assignment.exec (assignment : Assignment) : World → Progress :=
  assignment.value.storeIn semantics unset assignment.target

def LoopInit.exec : LoopInit → World → Progress
  | .declare declaration => declaration.exec semantics unset
  | .assign assignment => assignment.exec semantics unset

/-- Go around a loop at most as often as there is fuel. -/
def Expr.loop (cond : Expr) (body : World → Progress) : Nat → World → Progress
  | 0 => fun world => ⟨.exhausted, world⟩
  | fuel + 1 =>
      cond.evalThen semantics unset fun value world =>
        if value = 0 then ⟨.completed, world⟩ else (body world).andThen (cond.loop body fuel)

mutual

def Stmt.exec (fuel : Nat) : Stmt → World → Progress
  | .declare declaration => declaration.exec semantics unset
  | .assign assignment => assignment.exec semantics unset
  | .branch cond thenBlock none =>
      cond.evalThen semantics unset fun value world =>
        if value = 0 then ⟨.completed, world⟩ else Stmt.execAll fuel thenBlock world
  | .branch cond thenBlock (some elseBlock) =>
      cond.evalThen semantics unset fun value world =>
        if value = 0 then Stmt.execAll fuel elseBlock world
        else Stmt.execAll fuel thenBlock world
  | .whileLoop cond body => cond.loop semantics unset (Stmt.execAll fuel body) fuel
  | .forLoop init cond update body => fun world =>
      (init.exec semantics unset world).andThen
        (cond.loop semantics unset
          (fun world => (Stmt.execAll fuel body world).andThen (update.exec semantics unset)) fuel)
  | .ret none => fun world => ⟨.returned none, world⟩
  | .ret (some value) =>
      value.evalThen semantics unset fun value world => ⟨.returned (some value), world⟩
  | .call callee args =>
      (Expr.call callee args).evalThen semantics unset fun _ world => ⟨.completed, world⟩
  | .block stmts => Stmt.execAll fuel stmts

def Stmt.execAll (fuel : Nat) : List Stmt → World → Progress
  | [] => fun world => ⟨.completed, world⟩
  | stmt :: rest => fun world => (stmt.exec fuel world).andThen (Stmt.execAll fuel rest)

end

end Statements

/-- How a function ends that leaves its body in some way; it goes on if only fuel is missing. -/
def Signal.stop? : Signal → Option Stop
  | completed => some .finished
  | returned value => some (.returned value)
  | trapped => some .trapped
  | exhausted => none

/-- What is seen of a function's body. -/
def Progress.snapshot (progress : Progress) : Snapshot Stop Vars :=
  ⟨progress.signal.stop?, progress.world.vars, progress.world.params⟩

/-- The execution of a function's body, which works with more and more fuel. -/
def FunctionDecl.execution (semantics : Semantics) (unset : Int64) (function : FunctionDecl)
    (vars : Vars) : Execution Stop Vars :=
  fun fuel => (Stmt.execAll semantics unset fuel function.body ⟨vars, []⟩).snapshot

end MiddleEnd
