import MiddleEnd.Optimizer.Arithmetic
import MiddleEnd.Proofs.Analysis.Diagnostics
import MiddleEnd.Proofs.Lowering.Following
import MiddleEnd.Tree.Shorthand

/-!
Contract: lowering keeps the meaning of every function.

A piece of code evaluates an expression, or realizes a statement, if it does so wherever a machine
has it, provided that nothing else writes its temporaries. There is one rule for each way in which
lowering puts pieces together. Main statement: `lower_sameOutcome`.

Owns: the rules, and the meaning of each kind of expression, statement and function.
Does not own: what single instructions do (`MiddleEnd.Proofs.Lowering.Following`).
-/

namespace MiddleEnd

open Code (Numbered Draws)

namespace Machine

variable {machine : Machine} {unset : Int64} {fuel first middle last : Nat}
  {code front back : Code} {operand : Operand}

/-! ### Pieces of code -/

/-- Code that evaluates an expression wherever it stands. -/
structure Evaluates (machine : Machine) (unset : Int64) (first : Nat) (code : Code) (last : Nat)
    (operand : Operand) (eval : Vars → List Int64 → Evaluation) : Prop where
  numbered : Numbered first code last
  below : operand.Below last
  computes : ∀ ⦃start stop : Nat⦄, machine.Holds start code stop →
    machine.code.Owns first code last → machine.Computes unset first start stop operand eval

/-- Code that executes a statement wherever it stands. -/
structure Realizes (machine : Machine) (unset : Int64) (fuel first : Nat) (code : Code) (last : Nat)
    (exec : World → Progress) : Prop where
  numbered : Numbered first code last
  performs : ∀ ⦃start stop : Nat⦄, machine.Holds start code stop →
    machine.code.Owns first code last → machine.Performs unset fuel start stop exec

theorem nextTemp_below (names : NameSupply) :
    (Operand.slot (.temp names.nextTemp)).Below (names.temps + 1) :=
  Nat.lt_succ_of_le (UInt32.toNat_ofNat ▸ Nat.mod_le _ _)

namespace Evaluates

variable {evalFirst evalSecond : Vars → List Int64 → Evaluation}

/-- An operand that has its value without any code. -/
theorem nothing {eval : Vars → List Int64 → Evaluation} (below : operand.Below first)
    (settles : ∀ {start : Nat} {memory : Memory} {vars : Vars} {params : List Int64},
      machine.Mirrors unset memory ⟨vars, params⟩ →
        machine.Settles unset first ⟨start, memory⟩ start operand vars (eval vars params)) :
    machine.Evaluates unset first [] first operand eval where
  numbered := (Draws.nil ⟨first, 0⟩).temps
  below := below
  computes := by
    rintro start stop rfl _ memory vars params mirrors
    exact settles mirrors

theorem binary {names : NameSupply} {left right : Operand} (op : Operator)
    (evaluatesLeft : machine.Evaluates unset first front middle left evalFirst)
    (evaluatesRight : machine.Evaluates unset middle back names.temps right evalSecond) :
    machine.Evaluates unset first (front ++ back ++ [.binary names.nextTemp op left right])
      (names.temps + 1) (.slot (.temp names.nextTemp)) fun vars params =>
        (evalFirst vars params).andThen fun first params =>
          (evalSecond vars params).andThen fun second params =>
            ⟨machine.semantics op first second, params⟩ where
  numbered := (evaluatesLeft.numbered.append evaluatesRight.numbered).append
    (Draws.binary names op left right).temps
  below := nextTemp_below names
  computes := by
    intro start stop held owns
    obtain ⟨finish, heldOperands, executes, rfl⟩ := holds_append.1 held
    obtain ⟨between, heldLeft, heldRight⟩ := holds_append.1 heldOperands
    have ownsOperands := owns.left (Draws.binary names op left right).temps
    have ownsLeft := ownsOperands.left evaluatesRight.numbered
    have ownsRight := ownsOperands.right evaluatesLeft.numbered evaluatesRight.numbered.le
    have number := (NameSupply.nextTemp_eq_iff (Nat.lt_of_succ_le owns.few) names.nextTemp).1 rfl
    exact (evaluatesLeft.computes heldLeft ownsLeft).binary
      (evaluatesRight.computes heldRight ownsRight) executes evaluatesLeft.numbered.le
      evaluatesLeft.below (number ▸ evaluatesRight.numbered.le)

theorem pass {result : Operand} (arg : machine.Evaluates unset first front middle operand evalFirst)
    (rest : machine.Evaluates unset middle back last result evalSecond) :
    machine.Evaluates unset first (front ++ [.assign .param operand] ++ back) last result
      fun vars params =>
        (evalFirst vars params).andThen fun value params =>
          evalSecond vars (params ++ [value]) where
  numbered := (arg.numbered.append (.silent (.assign .param _) rfl _)).append rest.numbered
  below := rest.below
  computes := by
    intro start stop held owns
    obtain ⟨_, heldPassed, heldRest⟩ := holds_append.1 held
    obtain ⟨between, heldArg, executes, rfl⟩ := holds_append.1 heldPassed
    have passed : Numbered middle [.assign .param operand] middle := .silent _ rfl _
    have ownsArg := (owns.left rest.numbered).left passed
    have ownsRest := owns.right (arg.numbered.append passed) rest.numbered.le
    exact (arg.computes heldArg ownsArg).pass executes (rest.computes heldRest ownsRest)
      arg.numbered.le

theorem call {names : NameSupply} {eval : Vars → List Int64 → Evaluation}
    (passed : machine.Evaluates unset first code names.temps (.const unset) eval) :
    machine.Evaluates unset first code (names.temps + 1) (.slot (.temp names.nextTemp)) eval where
  numbered := by
    have taken := passed.numbered.append (Draws.idle names).temps
    rw [List.append_nil] at taken
    exact taken
  below := nextTemp_below names
  computes := by
    intro start stop held owns
    refine (passed.computes held ?_).call (owns.idle passed.numbered)
    rw [← List.append_nil code] at owns
    exact owns.left (Draws.idle names).temps

end Evaluates

namespace Realizes

variable {exec next : World → Progress} {expr : Expr}

theorem nothing (machine : Machine) (unset : Int64) (fuel first : Nat) :
    machine.Realizes unset fuel first [] first fun world => ⟨.completed, world⟩ where
  numbered := (Draws.nil ⟨first, 0⟩).temps
  performs := by
    rintro start stop rfl _
    exact .nothing machine unset fuel start

theorem append (before : machine.Realizes unset fuel first front middle exec)
    (after : machine.Realizes unset fuel middle back last next) :
    machine.Realizes unset fuel first (front ++ back) last fun world =>
      (exec world).andThen next where
  numbered := before.numbered.append after.numbered
  performs := by
    intro start stop held owns
    obtain ⟨between, heldFront, heldBack⟩ := holds_append.1 held
    exact (before.performs heldFront (owns.left after.numbered)).andThen
      (after.performs heldBack (owns.right before.numbered after.numbered.le))

/-- Code that evaluates an expression, and an instruction that uses the value. -/
theorem evalThen {instruction : Instruction} {use : Int64 → World → Progress}
    (evaluates : machine.Evaluates unset first code last operand
      (expr.eval machine.semantics unset))
    (silent : instruction.temp? = none)
    (uses : ∀ {index : Nat} {memory : Memory} {world : World} {value : Int64},
      machine.Executes index instruction → machine.Mirrors unset memory world →
        operand.value? memory.store = some value →
          machine.Yields unset fuel ⟨index, memory⟩ (index + 1) (use value world)) :
    machine.Realizes unset fuel first (code ++ [instruction]) last
      (expr.evalThen machine.semantics unset use) where
  numbered := evaluates.numbered.append (.silent instruction silent _)
  performs := by
    intro start stop held owns
    obtain ⟨between, heldCode, executes, rfl⟩ := holds_append.1 held
    have ownsCode := owns.left (Numbered.silent instruction silent last)
    exact (evaluates.computes heldCode ownsCode).evalThen (uses executes)

theorem store (target : Ident)
    (evaluates : machine.Evaluates unset first code last operand
      (expr.eval machine.semantics unset)) :
    machine.Realizes unset fuel first (code ++ [.assign (.slot (.var target.name)) operand]) last
      (expr.storeIn machine.semantics unset target) :=
  evalThen evaluates rfl Executes.stores

theorem ret
    (evaluates : machine.Evaluates unset first code last operand
      (expr.eval machine.semantics unset)) :
    machine.Realizes unset fuel first (code ++ [.assign .ret operand]) last
      (expr.evalThen machine.semantics unset fun value world => ⟨.returned (some value), world⟩) :=
  evalThen evaluates rfl Executes.returns

/-- A return of nothing. -/
theorem retNothing : machine.Realizes unset fuel first [.assign .ret .empty] first fun world =>
    ⟨.returned none, world⟩ where
  numbered := .silent _ rfl first
  performs := by
    rintro start stop ⟨executes, rfl⟩ _ memory world mirrors
    exact executes.returns mirrors rfl

/-- A call for the sake of its arguments. -/
theorem ignore
    (evaluates : machine.Evaluates unset first code last operand
      (expr.eval machine.semantics unset)) :
    machine.Realizes unset fuel first code last
      (expr.evalThen machine.semantics unset fun _ world => ⟨.completed, world⟩) where
  numbered := evaluates.numbered
  performs := by
    intro start stop held owns
    apply (evaluates.computes held owns).evalThen
    intro memory world _ mirrors _
    exact Performs.nothing machine unset fuel stop mirrors

end Realizes

/-! ### Branches and loops -/

section Labels

variable {test : Lowering.Value} {cond : Expr} {execThen execElse exec : World → Progress}
  {elseBlock endBlock startBlock : UInt32}

theorem marks_of_once (once : ∀ block, machine.code.labelCount block ≤ 1) {index : Nat}
    {block : UInt32} (executes : machine.Executes index (.label (.block block))) :
    machine.Marks index (.block block) := by
  have definedOnce := once block
  rw [Code.labelCount_eq_count] at definedOnce
  exact ⟨executes, Code.labelIndex?_of_count_le_one definedOnce executes.fetched⟩

theorem Realizes.branch (once : ∀ block, machine.code.labelCount block ≤ 1)
    (evaluates : machine.Evaluates unset first test.code middle test.operand
      (cond.eval machine.semantics unset))
    {between : Nat} (onTrue : machine.Realizes unset fuel middle front between execThen)
    (onFalse : machine.Realizes unset fuel between back last execElse) :
    machine.Realizes unset fuel first
      (Lowering.branchCode test (.block elseBlock) (.block endBlock) front back) last
      (cond.evalThen machine.semantics unset fun value world =>
        if value = 0 then execElse world else execThen world) := by
  have jumps (bound : Nat) : Numbered bound [.ifFalseGoto test.operand (.block elseBlock)] bound :=
    .silent _ rfl _
  have skips (bound : Nat) :
      Numbered bound ([.goto (.block endBlock)] ++ [.label (.block elseBlock)]) bound :=
    (Numbered.silent _ rfl bound).append (.silent _ rfl bound)
  have ends (bound : Nat) : Numbered bound [.label (.block endBlock)] bound := .silent _ rfl _
  have numberedThrough := (evaluates.numbered.append (jumps middle)).append onTrue.numbered
  refine ⟨((numberedThrough.append (skips between)).append onFalse.numbered).append (ends last), ?_⟩
  intro start stop held owns
  obtain ⟨elseStop, toElse, endHere, rfl⟩ := holds_append.1 held
  obtain ⟨_, toSkip, heldElse⟩ := holds_append.1 toElse
  obtain ⟨thenStop, toThen, skip, elseHere, rfl⟩ := holds_append.1 toSkip
  obtain ⟨_, toJump, heldThen⟩ := holds_append.1 toThen
  obtain ⟨tested, heldTest, jump, rfl⟩ := holds_append.1 toJump
  have ownsBefore := owns.left (ends last)
  have ownsThrough := (ownsBefore.left onFalse.numbered).left (skips between)
  have ownsTest := (ownsThrough.left onTrue.numbered).left (jumps middle)
  have ownsThen := ownsThrough.right (evaluates.numbered.append (jumps middle)) onTrue.numbered.le
  have ownsElse := ownsBefore.right (numberedThrough.append (skips between)) onFalse.numbered.le
  exact .branch (evaluates.computes heldTest ownsTest) jump (onTrue.performs heldThen ownsThen) skip
    (marks_of_once once elseHere) (onFalse.performs heldElse ownsElse) (marks_of_once once endHere)

theorem Realizes.loop (once : ∀ block, machine.code.labelCount block ≤ 1)
    (evaluates : machine.Evaluates unset first test.code middle test.operand
      (cond.eval machine.semantics unset))
    (body : machine.Realizes unset fuel middle code last exec) :
    machine.Realizes unset fuel first
      (Lowering.loopCode test (.block startBlock) (.block endBlock) code) last
      (cond.loop machine.semantics unset exec fuel) := by
  have starts (bound : Nat) : Numbered bound [.label (.block startBlock)] bound := .silent _ rfl _
  have jumps (bound : Nat) : Numbered bound [.ifFalseGoto test.operand (.block endBlock)] bound :=
    .silent _ rfl _
  have repeats (bound : Nat) :
      Numbered bound ([.goto (.block startBlock)] ++ [.label (.block endBlock)]) bound :=
    (Numbered.silent _ rfl bound).append (.silent _ rfl bound)
  have numberedTest := (starts first).append evaluates.numbered
  have numberedThrough := (numberedTest.append (jumps middle)).append body.numbered
  refine ⟨numberedThrough.append (repeats last), ?_⟩
  intro start stop held owns
  obtain ⟨bodyStop, toBody, back, endHere, rfl⟩ := holds_append.1 held
  obtain ⟨_, toJump, heldBody⟩ := holds_append.1 toBody
  obtain ⟨tested, toTest, jump, rfl⟩ := holds_append.1 toJump
  obtain ⟨_, ⟨startHere, rfl⟩, heldTest⟩ := holds_append.1 toTest
  have ownsThrough := owns.left (repeats last)
  have ownsTest := ((ownsThrough.left body.numbered).left (jumps middle)).right (starts first)
    evaluates.numbered.le
  have ownsBody := ownsThrough.right (numberedTest.append (jumps middle)) body.numbered.le
  exact .loop (marks_of_once once startHere) (evaluates.computes heldTest ownsTest) jump
    (body.performs heldBody ownsBody) back (marks_of_once once endHere) (Nat.le_refl fuel)

end Labels

end Machine

namespace Lowering

/-! ### Expressions and statements -/

section Lowered

variable {machine : Machine} {unset : Int64} {fuel : Nat} {table : Table}

mutual

theorem evaluates_lowerExpr (named : ∀ scope ident, resolve table scope ident = ident.name)
    (scope : String) (names : NameSupply) : ∀ expr : Expr,
    machine.Evaluates unset names.temps (lowerExpr table scope names expr).code
      (lowerExpr table scope names expr).names.temps (lowerExpr table scope names expr).operand
      (expr.eval machine.semantics unset)
  | .binary op left right =>
      .binary op (evaluates_lowerExpr named scope names left)
        (evaluates_lowerExpr named scope _ right)
  | .ident ident => by
      refine .nothing trivial fun mirrors => .here mirrors ?_
      simp only [lowerExpr, named, Operand.value?, mirrors.vars]
  | .int _ => .nothing trivial fun mirrors => .here mirrors rfl
  | .paren inner => evaluates_lowerExpr named scope names inner
  | .call _ args => .call (evaluates_lowerArgs named scope names args)

theorem evaluates_lowerArgs (named : ∀ scope ident, resolve table scope ident = ident.name)
    (scope : String) (names : NameSupply) : ∀ args : List Expr,
    machine.Evaluates unset names.temps (lowerArgs table scope names args).code
      (lowerArgs table scope names args).names.temps (.const unset)
      (Expr.passAll machine.semantics unset args)
  | [] => .nothing trivial fun mirrors => .here mirrors rfl
  | arg :: rest =>
      .pass (evaluates_lowerExpr named scope names arg) (evaluates_lowerArgs named scope _ rest)

end

section Named

variable (named : ∀ scope ident, resolve table scope ident = ident.name) (scope : String)

include named

theorem realizes_lowerStore (names : NameSupply) (target : Ident) (expr : Expr) :
    machine.Realizes unset fuel names.temps (lowerStore table scope names target expr).code
      (lowerStore table scope names target expr).names.temps
      (expr.storeIn machine.semantics unset target) := by
  rw [lowerStore, named]
  exact .store target (evaluates_lowerExpr named scope names expr)

theorem realizes_lowerDeclaration (names : NameSupply) (declaration : Declaration) :
    machine.Realizes unset fuel names.temps (lowerDeclaration table scope names declaration).code
      (lowerDeclaration table scope names declaration).names.temps
      (declaration.exec machine.semantics unset) := by
  unfold lowerDeclaration Declaration.exec
  cases declaration.init with
  | none => exact .nothing machine unset fuel names.temps
  | some init => exact realizes_lowerStore named scope names declaration.name init

theorem realizes_lowerInit (names : NameSupply) (init : LoopInit) :
    machine.Realizes unset fuel names.temps (lowerInit table scope names init).code
      (lowerInit table scope names init).names.temps (init.exec machine.semantics unset) := by
  cases init with
  | declare declaration => exact realizes_lowerDeclaration named scope names declaration
  | assign assignment => exact realizes_lowerStore named scope names _ _

theorem realizes_lowerReturn (names : NameSupply) (value : Option Expr) :
    machine.Realizes unset fuel names.temps (lowerReturn table scope names value).code
      (lowerReturn table scope names value).names.temps
      ((Stmt.ret value).exec machine.semantics unset fuel) := by
  cases value with
  | none => exact .retNothing
  | some expr => exact .ret (evaluates_lowerExpr named scope names expr)

end Named

mutual

theorem realizes_lowerStmt (named : ∀ scope ident, resolve table scope ident = ident.name)
    (once : ∀ block, machine.code.labelCount block ≤ 1) (scope : String) (names : NameSupply) :
    ∀ stmt : Stmt,
    machine.Realizes unset fuel names.temps (lowerStmt table scope names stmt).code
      (lowerStmt table scope names stmt).names.temps (stmt.exec machine.semantics unset fuel)
  | .declare declaration => realizes_lowerDeclaration named scope names declaration
  | .assign assignment => realizes_lowerStore named scope names assignment.target assignment.value
  | .branch cond thenBlock none =>
      let tested := (lowerExpr table scope names cond).names
      .branch once (evaluates_lowerExpr named scope names cond)
        (realizes_lowerStmts named once scope tested.takeLabel.takeLabel thenBlock)
        (.nothing machine unset fuel _)
  | .branch cond thenBlock (some elseBlock) =>
      let tested := (lowerExpr table scope names cond).names
      .branch once (evaluates_lowerExpr named scope names cond)
        (realizes_lowerStmts named once scope tested.takeLabel.takeLabel thenBlock)
        (realizes_lowerStmts named once scope _ elseBlock)
  | .whileLoop cond body =>
      .loop once (evaluates_lowerExpr named scope names.takeLabel.takeLabel cond)
        (realizes_lowerStmts named once scope _ body)
  | .forLoop init cond update body =>
      let before := (lowerInit table scope names init).names
      (realizes_lowerInit named scope names init).append
        (.loop once (evaluates_lowerExpr named scope before.takeLabel.takeLabel cond)
          ((realizes_lowerStmts named once scope _ body).append
            (realizes_lowerStore named scope _ update.target update.value)))
  | .ret value => realizes_lowerReturn named scope names value
  | .call callee args => .ignore (evaluates_lowerExpr named scope names (.call callee args))
  | .block stmts => realizes_lowerStmts named once scope names stmts

theorem realizes_lowerStmts (named : ∀ scope ident, resolve table scope ident = ident.name)
    (once : ∀ block, machine.code.labelCount block ≤ 1) (scope : String) (names : NameSupply) :
    ∀ stmts : List Stmt,
    machine.Realizes unset fuel names.temps (lowerStmts table scope names stmts).code
      (lowerStmts table scope names stmts).names.temps
      (Stmt.execAll machine.semantics unset fuel stmts)
  | [] => .nothing machine unset fuel names.temps
  | stmt :: rest =>
      (realizes_lowerStmt named once scope names stmt).append
        (realizes_lowerStmts named once scope _ rest)

end

end Lowered

/-! ### Functions -/

theorem resolve_analyze (program : Program) (scope : String) (ident : Ident) :
    resolve program.analyze.table scope ident = ident.name := by
  unfold resolve
  cases own : program.analyze.table.lookupIn scope ident.name with
  | some symbol => exact analyze_lookupIn_name own
  | none =>
      cases shared : program.analyze.table.lookupIn globalScope ident.name with
      | some symbol => exact analyze_lookupIn_name shared
      | none => rfl

theorem lowerFunctions_append (table : Table) (names : NameSupply)
    (front back : List FunctionDecl) :
    lowerFunctions table names (front ++ back) =
      let first := lowerFunctions table names front
      let second := lowerFunctions table first.names back
      ⟨first.code ++ second.code, second.names⟩ := by
  induction front generalizing names with
  | nil => rfl
  | cons function rest inductionHypothesis =>
      simp only [List.cons_append, lowerFunctions, inductionHypothesis, List.append_assoc]

/-- The code of functions, around the body of one of them. -/
theorem lowerFunctions_around (table : Table) (names : NameSupply)
    (front back : List FunctionDecl) (function : FunctionDecl) :
    lowerFunctions table names (front ++ function :: back) =
      let before := lowerFunctions table names front
      let body := lowerStmts table function.name.name before.names function.body
      let after := lowerFunctions table body.names back
      ⟨before.code ++ [.label (.function function.name.name)] ++ (body.code ++ after.code),
        after.names⟩ := by
  simp only [lowerFunctions_append, lowerFunctions, lowerFunction, List.append_assoc,
    List.cons_append, List.nil_append]

theorem length_lowerFunctions_concat (table : Table) (names : NameSupply)
    (front : List FunctionDecl) (function : FunctionDecl) :
    let before := lowerFunctions table names front
    (lowerFunctions table names (front ++ [function])).code.length = before.code.length + 1 +
      (lowerStmts table function.name.name before.names function.body).code.length := by
  simp only [lowerFunctions_around, lowerFunctions, List.append_nil, List.length_append,
    List.length_singleton]

theorem owns_body (table : Table) (front back : List FunctionDecl) (function : FunctionDecl)
    (few : (lowerFunctions table .start (front ++ function :: back)).names.temps ≤ 2 ^ 32) :
    let before := lowerFunctions table .start front
    let body := lowerStmts table function.name.name before.names function.body
    Code.Owns (lowerFunctions table .start (front ++ function :: back)).code before.names.temps
      body.code body.names.temps := by
  intro before body
  have numberedBefore := (draws_lowerFunctions table .start front).temps
  have numberedEntry : Numbered before.names.temps [.label (.function function.name.name)]
    before.names.temps := .silent _ rfl _
  have numberedBody := (draws_lowerStmts table function.name.name before.names function.body).temps
  have numberedAfter := (draws_lowerFunctions table body.names back).temps
  have owns : Code.Owns (lowerFunctions table .start (front ++ function :: back)).code
      NameSupply.start.temps (lowerFunctions table .start (front ++ function :: back)).code
      (lowerFunctions table .start (front ++ function :: back)).names.temps :=
    ⟨few, fun _ _ _ => rfl⟩
  rw [lowerFunctions_around] at owns ⊢
  have ownsRest := owns.right (numberedBefore.append numberedEntry)
    (Nat.le_trans numberedBody.le numberedAfter.le)
  exact ownsRest.left numberedAfter

/-- The body of a function, run where its code stands among that of other functions. -/
theorem sameOutcome_body {table : Table}
    (named : ∀ scope ident, resolve table scope ident = ident.name) (semantics : Semantics)
    (unset : Int64) (front back : List FunctionDecl) (function : FunctionDecl) (vars : Vars)
    (fewTemps : (lowerFunctions table .start (front ++ function :: back)).names.temps ≤ 2 ^ 32)
    (fewLabels : (lowerFunctions table .start (front ++ function :: back)).names.labels ≤ 2 ^ 32) :
    let start := (lowerFunctions table .start front).code.length + 1
    let machine : Machine :=
      { semantics
        code := (lowerFunctions table .start (front ++ function :: back)).code
        first := start
        last := (lowerFunctions table .start (front ++ [function])).code.length }
    (function.execution semantics unset vars).SameOutcome
      (machine.execution Store.vars ⟨start, .initial unset vars⟩) := by
  intro start machine
  have once : ∀ block, machine.code.labelCount block ≤ 1 := by
    intro block
    have defined := (draws_lowerFunctions table .start (front ++ function :: back)).labels.defines
      fewLabels block
    rw [defined, span]
    split <;> omega
  apply Machine.sameOutcome_of_yields
  intro fuel
  let names := (lowerFunctions table .start front).names
  refine (realizes_lowerStmts named once function.name.name names function.body).performs ?_
    (owns_body table front back function fewTemps) (.initial machine unset vars)
  have held := @Machine.holds_of_split machine _ _ _
    (congrArg Fragment.code (lowerFunctions_around table .start front back function))
  simp only [List.length_append, List.length_singleton] at held
  have last := length_lowerFunctions_concat table .start front function
  rw [show machine.last = _ from last]
  exact held (Nat.le_refl _) (Nat.le_of_eq last.symm)

end Lowering

namespace Program

open Lowering

/-- The index of the entry label of a function in the code of a program, and where the code ends for
the index after that of the last function. -/
def entryIndex (program : Program) (index : Nat) : Nat :=
  (lowerFunctions program.analyze.table .start (program.functions.take index)).code.length

/-- The machine that runs the code of one function of a program, without its entry label. -/
def segment (semantics : Semantics) (program : Program) (index : Nat) : Machine where
  semantics := semantics
  code := program.lower program.analyze.table
  first := program.entryIndex index + 1
  last := program.entryIndex (index + 1)

end Program

/-- Running the code of any function of any program, from just after its entry label and from any
variables, has the same outcome as executing the function's body on the tree. -/
theorem lower_sameOutcome (semantics : Semantics) (unset : Int64) (program : Program) (index : Nat)
    (function : FunctionDecl) (present : program.functions[index]? = some function)
    (fewTemps : (Lowering.lowerFunctions program.analyze.table .start
      program.functions).names.temps < 2 ^ 32)
    (fewLabels : (Lowering.lowerFunctions program.analyze.table .start
      program.functions).names.labels < 2 ^ 32) (vars : Vars) :
    (program.lower program.analyze.table)[program.entryIndex index]? =
        some (.label (.function function.name.name)) ∧
      (function.execution semantics unset vars).SameOutcome
        ((program.segment semantics index).execution Store.vars
          ⟨program.entryIndex index + 1, .initial unset vars⟩) := by
  obtain ⟨inside, isFunction⟩ := List.getElem?_eq_some_iff.1 present
  have split : program.functions =
      program.functions.take index ++ function :: program.functions.drop (index + 1) := by
    rw [← isFunction, ← List.drop_eq_getElem_cons inside, List.take_append_drop]
  have through : program.functions.take (index + 1) =
      program.functions.take index ++ [function] := by
    rw [← isFunction]
    exact List.take_succ_eq_append_getElem inside
  rw [split] at fewTemps fewLabels
  constructor
  · rw [Program.lower, split]
    simp [Lowering.lowerFunctions_around, Program.entryIndex]
  · have same := Lowering.sameOutcome_body (Lowering.resolve_analyze program) semantics unset
      (program.functions.take index) (program.functions.drop (index + 1)) function vars
      (Nat.le_of_lt fewTemps) (Nat.le_of_lt fewLabels)
    rw [← split, ← through] at same
    exact same

open Shorthand in
theorem lower_sameOutcome_countdown :
    let countdown := function "countdown" ["n"]
      [whileLoop (var "n") [callStmt "show" [var "n"], assign "n" (binary .sub (var "n") (int 1))],
        ret (some (call "done" []))]
    let sample : Program := ⟨[function "main" [] [callStmt "countdown" [int 3]], countdown]⟩
    let names := (Lowering.lowerFunctions sample.analyze.table .start sample.functions).names
    sample.functions[1]? = some countdown ∧ names.temps < 2 ^ 32 ∧ names.labels < 2 ^ 32 ∧
      ∀ vars, (sample.lower sample.analyze.table)[sample.entryIndex 1]? =
          some (.label (.function "countdown")) ∧
        (countdown.execution evaluate 0 vars).SameOutcome
          ((sample.segment evaluate 1).execution Store.vars
            ⟨sample.entryIndex 1 + 1, .initial 0 vars⟩) := by
  intro countdown sample names
  have present : sample.functions[1]? = some countdown := rfl
  have fewTemps : names.temps < 2 ^ 32 := by decide
  have fewLabels : names.labels < 2 ^ 32 := by decide
  exact ⟨present, fewTemps, fewLabels,
    fun vars => lower_sameOutcome evaluate 0 sample 1 countdown present fewTemps fewLabels vars⟩

end MiddleEnd
