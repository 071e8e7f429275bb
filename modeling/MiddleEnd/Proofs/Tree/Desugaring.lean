import MiddleEnd.Analysis.Analyzer
import MiddleEnd.Lowering
import MiddleEnd.Tree.Shorthand

/-!
Contract: parentheses, nested blocks and `for` loops say nothing that simpler trees do not say.

`Program.desugar` takes all three out of a program, at every depth. Parentheses go, the statements of
a nested block move into the list around it, and a `for` loop becomes its start followed by a `while`
loop that ends with the update. What is left is plain. The analysis of the plain program and its code
are those of the program itself (`desugar_invisible`): the walk meets the same names in the same
order, and the same temporaries and labels are drawn.

Owns: the transformation, plain programs, and that neither analysis nor lowering sees the difference.
-/

namespace MiddleEnd

/-! ### Plain trees -/

mutual

/-- Whether an expression has no parentheses in it. -/
def Expr.isPlain : Expr → Bool
  | .binary _ left right => left.isPlain && right.isPlain
  | .ident _ => true
  | .int _ => true
  | .paren _ => false
  | .call _ args => Expr.allPlain args

def Expr.allPlain : List Expr → Bool
  | [] => true
  | expr :: rest => expr.isPlain && Expr.allPlain rest

end

def Declaration.isPlain (declaration : Declaration) : Bool := declaration.init.all Expr.isPlain

mutual

/-- Whether a statement has no parentheses, no nested blocks and no `for` loops in it. -/
def Stmt.isPlain : Stmt → Bool
  | .declare declaration => declaration.isPlain
  | .assign assignment => assignment.value.isPlain
  | .branch cond thenBlock none => cond.isPlain && Stmt.allPlain thenBlock
  | .branch cond thenBlock (some elseBlock) =>
      cond.isPlain && Stmt.allPlain thenBlock && Stmt.allPlain elseBlock
  | .whileLoop cond body => cond.isPlain && Stmt.allPlain body
  | .forLoop _ _ _ _ => false
  | .ret value => value.all Expr.isPlain
  | .call _ args => Expr.allPlain args
  | .block _ => false

def Stmt.allPlain : List Stmt → Bool
  | [] => true
  | stmt :: rest => stmt.isPlain && Stmt.allPlain rest

end

/-- Whether every function body of a program is plain. -/
def Program.isPlain (program : Program) : Bool :=
  program.functions.all fun function => Stmt.allPlain function.body

/-! ### The transformation -/

mutual

/-- The expression without its parentheses. -/
def Expr.desugar : Expr → Expr
  | .binary op left right => .binary op left.desugar right.desugar
  | .ident name => .ident name
  | .int value => .int value
  | .paren inner => inner.desugar
  | .call callee args => .call callee (Expr.desugarAll args)

def Expr.desugarAll : List Expr → List Expr
  | [] => []
  | expr :: rest => expr.desugar :: Expr.desugarAll rest

end

def Declaration.desugar (declaration : Declaration) : Declaration :=
  { declaration with init := declaration.init.map Expr.desugar }

def Assignment.desugar (assignment : Assignment) : Assignment :=
  { assignment with value := assignment.value.desugar }

/-- The start of a loop as a statement of its own. -/
def LoopInit.desugar : LoopInit → Stmt
  | .declare declaration => .declare declaration.desugar
  | .assign assignment => .assign assignment.desugar

mutual

/-- The plain statements that stand for a statement. -/
def Stmt.desugar : Stmt → List Stmt
  | .declare declaration => [.declare declaration.desugar]
  | .assign assignment => [.assign assignment.desugar]
  | .branch cond thenBlock none => [.branch cond.desugar (Stmt.desugarAll thenBlock) none]
  | .branch cond thenBlock (some elseBlock) =>
      [.branch cond.desugar (Stmt.desugarAll thenBlock) (some (Stmt.desugarAll elseBlock))]
  | .whileLoop cond body => [.whileLoop cond.desugar (Stmt.desugarAll body)]
  | .forLoop init cond update body =>
      [init.desugar, .whileLoop cond.desugar (Stmt.desugarAll body ++ [.assign update.desugar])]
  | .ret value => [.ret (value.map Expr.desugar)]
  | .call callee args => [.call callee (Expr.desugarAll args)]
  | .block stmts => Stmt.desugarAll stmts

/-- The plain statements that stand for a list of statements. -/
def Stmt.desugarAll : List Stmt → List Stmt
  | [] => []
  | stmt :: rest => stmt.desugar ++ Stmt.desugarAll rest

end

def FunctionDecl.desugar (function : FunctionDecl) : FunctionDecl :=
  { function with body := Stmt.desugarAll function.body }

/-- The plain form of a program. -/
def Program.desugar (program : Program) : Program :=
  ⟨program.functions.map FunctionDecl.desugar⟩

/-! ### The result is plain -/

mutual

theorem Expr.isPlain_desugar : ∀ expr : Expr, expr.desugar.isPlain = true
  | .binary _ left right => by
      simp only [desugar, isPlain, isPlain_desugar left, isPlain_desugar right, Bool.and_self]
  | .ident _ => rfl
  | .int _ => rfl
  | .paren inner => isPlain_desugar inner
  | .call _ args => allPlain_desugarAll args

theorem Expr.allPlain_desugarAll : ∀ exprs : List Expr,
    Expr.allPlain (Expr.desugarAll exprs) = true
  | [] => rfl
  | expr :: rest => by
      simp only [desugarAll, allPlain, isPlain_desugar expr, allPlain_desugarAll rest,
        Bool.and_self]

end

theorem Expr.all_isPlain_desugar (value : Option Expr) :
    (value.map Expr.desugar).all Expr.isPlain = true := by
  cases value with
  | none => rfl
  | some expr => exact expr.isPlain_desugar

theorem Stmt.allPlain_append (front back : List Stmt) :
    Stmt.allPlain (front ++ back) = (Stmt.allPlain front && Stmt.allPlain back) := by
  induction front with
  | nil => rfl
  | cons stmt rest inductionHypothesis =>
      rw [List.cons_append, allPlain, allPlain, inductionHypothesis, Bool.and_assoc]

theorem Stmt.allPlain_singleton (stmt : Stmt) : Stmt.allPlain [stmt] = stmt.isPlain :=
  Bool.and_true _

theorem LoopInit.isPlain_desugar (init : LoopInit) : init.desugar.isPlain = true := by
  cases init with
  | declare declaration => exact Expr.all_isPlain_desugar declaration.init
  | assign assignment => exact assignment.value.isPlain_desugar

mutual

theorem Stmt.allPlain_desugar : ∀ stmt : Stmt, Stmt.allPlain stmt.desugar = true
  | .declare declaration => by
      rw [desugar, allPlain_singleton]
      exact Expr.all_isPlain_desugar declaration.init
  | .assign assignment => by
      rw [desugar, allPlain_singleton]
      exact assignment.value.isPlain_desugar
  | .branch cond thenBlock none => by
      rw [desugar, allPlain_singleton, isPlain, cond.isPlain_desugar,
        allPlain_desugarAll thenBlock, Bool.and_self]
  | .branch cond thenBlock (some elseBlock) => by
      rw [desugar, allPlain_singleton, isPlain, cond.isPlain_desugar,
        allPlain_desugarAll thenBlock, allPlain_desugarAll elseBlock, Bool.and_self, Bool.and_self]
  | .whileLoop cond body => by
      rw [desugar, allPlain_singleton, isPlain, cond.isPlain_desugar, allPlain_desugarAll body,
        Bool.and_self]
  | .forLoop init cond update body => by
      have inner : Stmt.allPlain (Stmt.desugarAll body ++ [.assign update.desugar]) = true := by
        rw [allPlain_append, allPlain_desugarAll body, allPlain_singleton, Bool.true_and]
        exact update.value.isPlain_desugar
      rw [desugar, allPlain, allPlain_singleton, isPlain, init.isPlain_desugar,
        cond.isPlain_desugar, inner, Bool.and_self, Bool.and_self]
  | .ret value => by
      rw [desugar, allPlain_singleton]
      exact Expr.all_isPlain_desugar value
  | .call _ args => by
      rw [desugar, allPlain_singleton]
      exact Expr.allPlain_desugarAll args
  | .block stmts => allPlain_desugarAll stmts

theorem Stmt.allPlain_desugarAll : ∀ stmts : List Stmt,
    Stmt.allPlain (Stmt.desugarAll stmts) = true
  | [] => rfl
  | stmt :: rest => by
      rw [desugarAll, allPlain_append, allPlain_desugar stmt, allPlain_desugarAll rest,
        Bool.and_self]

end

theorem Program.isPlain_desugar (program : Program) : program.desugar.isPlain = true := by
  rw [isPlain, desugar, List.all_map, List.all_eq_true]
  intro function _
  exact Stmt.allPlain_desugarAll function.body

open Shorthand in
example :
    Stmt.desugar
        (block
          [forLoop (.declare (declaration "i" (some (paren (int 3))))) (paren (var "i"))
            (assignment "i" (binary .sub (paren (var "i")) (int 1))) [block [block []], ret none]]) =
      [declare "i" (some (int 3)),
        whileLoop (var "i") [ret none, assign "i" (binary .sub (var "i") (int 1))]] := rfl

/-! ### Analysis -/

namespace Analysis.State

mutual

theorem walkExpr_desugar : ∀ (expr : Expr) (state : State),
    state.walkExpr expr.desugar = state.walkExpr expr
  | .binary _ left right, state => by
      simp only [Expr.desugar, walkExpr, walkExpr_desugar left, walkExpr_desugar right]
  | .ident _, _ => rfl
  | .int _, _ => rfl
  | .paren inner, state => walkExpr_desugar inner state
  | .call name args, state => walkExprs_desugar args (state.callee name)

theorem walkExprs_desugar : ∀ (exprs : List Expr) (state : State),
    state.walkExprs (Expr.desugarAll exprs) = state.walkExprs exprs
  | [], _ => rfl
  | expr :: rest, state => by
      simp only [Expr.desugarAll, walkExprs, walkExpr_desugar expr, walkExprs_desugar rest]

end

theorem walkOption_desugar (value : Option Expr) (state : State) :
    state.walkOption (value.map Expr.desugar) = state.walkOption value := by
  cases value with
  | none => rfl
  | some expr => exact walkExpr_desugar expr state

theorem walkDeclaration_desugar (declaration : Declaration) (state : State) :
    state.walkDeclaration declaration.desugar = state.walkDeclaration declaration := by
  simp only [walkDeclaration, Declaration.desugar, walkOption_desugar, Option.isSome_map]

theorem walkAssignment_desugar (assignment : Assignment) (state : State) :
    state.walkAssignment assignment.desugar = state.walkAssignment assignment := by
  simp only [walkAssignment, Assignment.desugar, walkExpr_desugar]

theorem walkInit_desugar (init : LoopInit) (state : State) :
    state.walkStmt init.desugar = state.walkInit init := by
  cases init with
  | declare declaration => exact walkDeclaration_desugar declaration state
  | assign assignment => exact walkAssignment_desugar assignment state

theorem walkStmts_append (front back : List Stmt) (state : State) :
    state.walkStmts (front ++ back) = (state.walkStmts front).walkStmts back := by
  induction front generalizing state with
  | nil => rfl
  | cons stmt rest inductionHypothesis => exact inductionHypothesis (state.walkStmt stmt)

mutual

theorem walkStmt_desugar : ∀ (stmt : Stmt) (state : State),
    state.walkStmts stmt.desugar = state.walkStmt stmt
  | .declare declaration, state => walkDeclaration_desugar declaration state
  | .assign assignment, state => walkAssignment_desugar assignment state
  | .branch cond thenBlock none, state => by
      simp only [Stmt.desugar, walkStmts, walkStmt, walkExpr_desugar, walkStmts_desugar thenBlock]
  | .branch cond thenBlock (some elseBlock), state => by
      simp only [Stmt.desugar, walkStmts, walkStmt, walkExpr_desugar, walkStmts_desugar thenBlock,
        walkStmts_desugar elseBlock]
  | .whileLoop cond body, state => by
      simp only [Stmt.desugar, walkStmts, walkStmt, walkExpr_desugar, walkStmts_desugar body]
  | .forLoop init cond update body, state => by
      simp only [Stmt.desugar, walkStmts, walkStmt, walkInit_desugar, walkExpr_desugar,
        walkStmts_append, walkStmts_desugar body, walkAssignment_desugar]
  | .ret value, state => walkOption_desugar value state
  | .call name args, state => walkExprs_desugar args (state.callee name)
  | .block stmts, state => walkStmts_desugar stmts state

theorem walkStmts_desugar : ∀ (stmts : List Stmt) (state : State),
    state.walkStmts (Stmt.desugarAll stmts) = state.walkStmts stmts
  | [], _ => rfl
  | stmt :: rest, state => by
      rw [Stmt.desugarAll, walkStmts_append, walkStmt_desugar stmt, walkStmts_desugar rest]
      rfl

end

theorem walkFunction_desugar (state : State) (function : FunctionDecl) :
    state.walkFunction function.desugar = state.walkFunction function := by
  simp only [walkFunction, FunctionDecl.desugar, walkStmts_desugar]

end Analysis.State

theorem Program.analyze_desugar (program : Program) :
    program.desugar.analyze = program.analyze := by
  have sameWalk : program.desugar.functions.foldl Analysis.State.walkFunction .start =
      program.functions.foldl Analysis.State.walkFunction .start := by
    rw [desugar, List.foldl_map]
    simp only [Analysis.State.walkFunction_desugar]
  simp only [analyze, sameWalk]

/-! ### Lowering -/

namespace Lowering

variable (table : Table) (scope : String)

mutual

theorem lowerExpr_desugar : ∀ (expr : Expr) (names : NameSupply),
    lowerExpr table scope names expr.desugar = lowerExpr table scope names expr
  | .binary _ left right, names => by
      simp only [Expr.desugar, lowerExpr, lowerExpr_desugar left, lowerExpr_desugar right]
  | .ident _, _ => rfl
  | .int _, _ => rfl
  | .paren inner, names => lowerExpr_desugar inner names
  | .call _ args, names => by
      simp only [Expr.desugar, lowerExpr, lowerArgs_desugar args]

theorem lowerArgs_desugar : ∀ (args : List Expr) (names : NameSupply),
    lowerArgs table scope names (Expr.desugarAll args) = lowerArgs table scope names args
  | [], _ => rfl
  | arg :: rest, names => by
      simp only [Expr.desugarAll, lowerArgs, lowerExpr_desugar arg, lowerArgs_desugar rest]

end

theorem lowerDeclaration_desugar (declaration : Declaration) (names : NameSupply) :
    lowerDeclaration table scope names declaration.desugar =
      lowerDeclaration table scope names declaration := by
  unfold lowerDeclaration Declaration.desugar
  cases declaration.init with
  | none => rfl
  | some init => simp only [Option.map_some, lowerStore, lowerExpr_desugar]

theorem lowerAssignment_desugar (assignment : Assignment) (names : NameSupply) :
    lowerAssignment table scope names assignment.desugar =
      lowerAssignment table scope names assignment := by
  simp only [lowerAssignment, Assignment.desugar, lowerStore, lowerExpr_desugar]

theorem lowerInit_desugar (init : LoopInit) (names : NameSupply) :
    lowerStmt table scope names init.desugar = lowerInit table scope names init := by
  cases init with
  | declare declaration => exact lowerDeclaration_desugar table scope declaration names
  | assign assignment => exact lowerAssignment_desugar table scope assignment names

theorem lowerReturn_desugar (value : Option Expr) (names : NameSupply) :
    lowerReturn table scope names (value.map Expr.desugar) =
      lowerReturn table scope names value := by
  cases value with
  | none => rfl
  | some expr => simp only [Option.map_some, lowerReturn, lowerExpr_desugar]

theorem lowerStmts_append (front back : List Stmt) (names : NameSupply) :
    lowerStmts table scope names (front ++ back) =
      let first := lowerStmts table scope names front
      let second := lowerStmts table scope first.names back
      ⟨first.code ++ second.code, second.names⟩ := by
  induction front generalizing names with
  | nil => rfl
  | cons stmt rest inductionHypothesis =>
      simp only [List.cons_append, lowerStmts, inductionHypothesis, List.append_assoc]

theorem lowerStmts_singleton (stmt : Stmt) (names : NameSupply) :
    lowerStmts table scope names [stmt] = lowerStmt table scope names stmt := by
  simp only [lowerStmts, List.append_nil]

mutual

theorem lowerStmt_desugar : ∀ (stmt : Stmt) (names : NameSupply),
    lowerStmts table scope names stmt.desugar = lowerStmt table scope names stmt
  | .declare declaration, names => by
      rw [Stmt.desugar, lowerStmts_singleton]
      exact lowerDeclaration_desugar table scope declaration names
  | .assign assignment, names => by
      rw [Stmt.desugar, lowerStmts_singleton]
      exact lowerAssignment_desugar table scope assignment names
  | .branch cond thenBlock none, names => by
      rw [Stmt.desugar, lowerStmts_singleton]
      simp only [lowerStmt, lowerExpr_desugar, lowerStmts_desugar thenBlock]
  | .branch cond thenBlock (some elseBlock), names => by
      rw [Stmt.desugar, lowerStmts_singleton]
      simp only [lowerStmt, lowerExpr_desugar, lowerStmts_desugar thenBlock,
        lowerStmts_desugar elseBlock]
  | .whileLoop cond body, names => by
      rw [Stmt.desugar, lowerStmts_singleton]
      simp only [lowerStmt, lowerExpr_desugar, lowerStmts_desugar body]
  | .forLoop init cond update body, names => by
      -- Either way the loop draws its labels after its start and its update after its body.
      rw [Stmt.desugar, lowerStmts, lowerStmts_singleton, lowerInit_desugar]
      simp only [lowerStmt, lowerExpr_desugar, lowerStmts_append, lowerStmts_desugar body,
        lowerStmts_singleton, lowerAssignment_desugar]
  | .ret value, names => by
      rw [Stmt.desugar, lowerStmts_singleton]
      exact lowerReturn_desugar table scope value names
  | .call _ args, names => by
      rw [Stmt.desugar, lowerStmts_singleton]
      simp only [lowerStmt, lowerExpr, lowerArgs_desugar]
  | .block stmts, names => lowerStmts_desugar stmts names

theorem lowerStmts_desugar : ∀ (stmts : List Stmt) (names : NameSupply),
    lowerStmts table scope names (Stmt.desugarAll stmts) = lowerStmts table scope names stmts
  | [], _ => rfl
  | stmt :: rest, names => by
      simp only [Stmt.desugarAll, lowerStmts_append, lowerStmts, lowerStmt_desugar stmt,
        lowerStmts_desugar rest]

end

theorem lowerFunctions_desugar (functions : List FunctionDecl) (names : NameSupply) :
    lowerFunctions table names (functions.map FunctionDecl.desugar) =
      lowerFunctions table names functions := by
  induction functions generalizing names with
  | nil => rfl
  | cons function rest inductionHypothesis =>
      simp only [List.map_cons, lowerFunctions, lowerFunction, FunctionDecl.desugar,
        lowerStmts_desugar, inductionHypothesis]

end Lowering

/-- The plain form of a program has the analysis of the program, with its table, errors and warnings,
and against any table it has the code of the program. -/
theorem desugar_invisible (program : Program) :
    program.desugar.isPlain = true ∧ program.desugar.analyze = program.analyze ∧
      ∀ table, program.desugar.lower table = program.lower table := by
  refine ⟨program.isPlain_desugar, program.analyze_desugar, ?_⟩
  intro table
  exact congrArg Lowering.Fragment.code
    (Lowering.lowerFunctions_desugar table program.functions .start)

end MiddleEnd
