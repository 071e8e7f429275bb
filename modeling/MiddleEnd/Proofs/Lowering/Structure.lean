import Mathlib.Algebra.GroupWithZero.Nat
import MiddleEnd.Proofs.Lowering.Sites
import MiddleEnd.Tree.Shorthand

/-!
Contract: the names and the control structure of lowered code can be read off the tree.

Lowering takes one temporary for each operation and each call, and two block labels for each branch
and each loop, so the supply that it leaves is known before it starts. The code defines exactly the
labels that were taken, jumps only within the statement that the jump was emitted for, hands each
temporary from one operation to one reader, and uses the empty operand only to return nothing. All
of this holds for pieces that are lowered one after the other and for a program after them, since
they share one supply (`lowerAfter_structured`).

Owns: the operations and control statements of a tree, and the form of single instructions.
Does not own: the temporaries (`MiddleEnd.Proofs.Lowering.Wiring`), the labels
(`MiddleEnd.Proofs.Lowering.Names`) and the jumps (`MiddleEnd.Proofs.Lowering.Sites`).
-/

namespace MiddleEnd

/-! ### Operations and control statements -/

mutual

/-- How many operations and calls an expression has. -/
def Expr.operations : Expr → Nat
  | .binary _ left right => left.operations + right.operations + 1
  | .ident _ => 0
  | .int _ => 0
  | .paren inner => inner.operations
  | .call _ args => Expr.operationsAll args + 1

def Expr.operationsAll : List Expr → Nat
  | [] => 0
  | arg :: rest => arg.operations + Expr.operationsAll rest

end

def Declaration.operations (declaration : Declaration) : Nat :=
  match declaration.init with
  | none => 0
  | some init => init.operations

def LoopInit.operations : LoopInit → Nat
  | .declare declaration => declaration.operations
  | .assign assignment => assignment.value.operations

mutual

/-- How many operations and calls a statement has, those of the statements inside it included. -/
def Stmt.operations : Stmt → Nat
  | .declare declaration => declaration.operations
  | .assign assignment => assignment.value.operations
  | .branch cond thenBlock none => cond.operations + Stmt.operationsAll thenBlock
  | .branch cond thenBlock (some elseBlock) =>
      cond.operations + Stmt.operationsAll thenBlock + Stmt.operationsAll elseBlock
  | .whileLoop cond body => cond.operations + Stmt.operationsAll body
  | .forLoop init cond update body =>
      init.operations + cond.operations + update.value.operations + Stmt.operationsAll body
  | .ret none => 0
  | .ret (some value) => value.operations
  | .call _ args => Expr.operationsAll args + 1
  | .block stmts => Stmt.operationsAll stmts

def Stmt.operationsAll : List Stmt → Nat
  | [] => 0
  | stmt :: rest => stmt.operations + Stmt.operationsAll rest

end

mutual

/-- How many branches and loops a statement has, itself included. -/
def Stmt.controls : Stmt → Nat
  | .declare _ => 0
  | .assign _ => 0
  | .branch _ thenBlock none => 1 + Stmt.controlsAll thenBlock
  | .branch _ thenBlock (some elseBlock) =>
      1 + Stmt.controlsAll thenBlock + Stmt.controlsAll elseBlock
  | .whileLoop _ body => 1 + Stmt.controlsAll body
  | .forLoop _ _ _ body => 1 + Stmt.controlsAll body
  | .ret _ => 0
  | .call _ _ => 0
  | .block stmts => Stmt.controlsAll stmts

def Stmt.controlsAll : List Stmt → Nat
  | [] => 0
  | stmt :: rest => stmt.controls + Stmt.controlsAll rest

end

namespace Lowering

def Piece.operations : Piece → Nat
  | .stmt tree => tree.operations
  | .expr tree => tree.operations

def Piece.controls : Piece → Nat
  | .stmt tree => tree.controls
  | .expr _ => 0

end Lowering

namespace Program

def operations (program : Program) : Nat :=
  (program.functions.map fun function => Stmt.operationsAll function.body).sum

def controls (program : Program) : Nat :=
  (program.functions.map fun function => Stmt.controlsAll function.body).sum

/-- The names that are left after pieces and then a program have been lowered. -/
def namesAfter (program : Program) (table : Table) (pieces : List Lowering.Piece) : NameSupply :=
  (Lowering.lowerFunctions table (Lowering.lowerPieces table .start pieces).1.names
    program.functions).names

end Program

namespace Lowering

variable (table : Table) (scope : String)

/-! ### What is taken from the supply -/

mutual

theorem names_lowerExpr (names : NameSupply) : ∀ expr : Expr,
    (lowerExpr table scope names expr).names = ⟨names.temps + expr.operations, names.labels⟩
  | .binary _ left right => by
      simp only [lowerExpr, names_lowerExpr _ right, names_lowerExpr names left,
        NameSupply.takeTemp, Expr.operations, Nat.add_assoc]
  | .ident _ => rfl
  | .int _ => rfl
  | .paren inner => names_lowerExpr names inner
  | .call _ args => by
      simp only [lowerExpr, names_lowerArgs names args, NameSupply.takeTemp, Expr.operations,
        Nat.add_assoc]

theorem names_lowerArgs (names : NameSupply) : ∀ args : List Expr,
    (lowerArgs table scope names args).names =
      ⟨names.temps + Expr.operationsAll args, names.labels⟩
  | [] => rfl
  | arg :: rest => by
      simp only [lowerArgs, names_lowerArgs _ rest, names_lowerExpr names arg,
        Expr.operationsAll, Nat.add_assoc]

end

theorem names_lowerDeclaration (names : NameSupply) (declaration : Declaration) :
    (lowerDeclaration table scope names declaration).names =
      ⟨names.temps + declaration.operations, names.labels⟩ := by
  unfold lowerDeclaration Declaration.operations
  cases declaration.init with
  | none => rfl
  | some init => exact names_lowerExpr table scope names init

theorem names_lowerAssignment (names : NameSupply) (assignment : Assignment) :
    (lowerAssignment table scope names assignment).names =
      ⟨names.temps + assignment.value.operations, names.labels⟩ :=
  names_lowerExpr table scope names assignment.value

theorem names_lowerInit (names : NameSupply) (init : LoopInit) :
    (lowerInit table scope names init).names =
      ⟨names.temps + init.operations, names.labels⟩ := by
  cases init with
  | declare declaration => exact names_lowerDeclaration table scope names declaration
  | assign assignment => exact names_lowerAssignment table scope names assignment

mutual

theorem names_lowerStmt (names : NameSupply) : ∀ stmt : Stmt,
    (lowerStmt table scope names stmt).names =
      ⟨names.temps + stmt.operations, names.labels + 2 * stmt.controls⟩
  | .declare declaration => names_lowerDeclaration table scope names declaration
  | .assign assignment => names_lowerAssignment table scope names assignment
  | .branch cond thenBlock none => by
      simp only [lowerStmt, names_lowerStmts _ thenBlock, names_lowerExpr, NameSupply.takeLabel,
        Stmt.operations, Stmt.controls, NameSupply.mk.injEq]
      omega
  | .branch cond thenBlock (some elseBlock) => by
      simp only [lowerStmt, names_lowerStmts _ elseBlock, names_lowerStmts _ thenBlock,
        names_lowerExpr, NameSupply.takeLabel, Stmt.operations, Stmt.controls,
        NameSupply.mk.injEq]
      omega
  | .whileLoop cond body => by
      simp only [lowerStmt, names_lowerStmts _ body, names_lowerExpr, NameSupply.takeLabel,
        Stmt.operations, Stmt.controls, NameSupply.mk.injEq]
      omega
  | .forLoop init cond update body => by
      simp only [lowerStmt, names_lowerAssignment, names_lowerStmts _ body, names_lowerExpr,
        names_lowerInit, NameSupply.takeLabel, Stmt.operations, Stmt.controls,
        NameSupply.mk.injEq]
      omega
  | .ret none => rfl
  | .ret (some value) => names_lowerExpr table scope names value
  | .call callee args => names_lowerExpr table scope names (.call callee args)
  | .block stmts => names_lowerStmts names stmts

theorem names_lowerStmts (names : NameSupply) : ∀ stmts : List Stmt,
    (lowerStmts table scope names stmts).names =
      ⟨names.temps + Stmt.operationsAll stmts, names.labels + 2 * Stmt.controlsAll stmts⟩
  | [] => rfl
  | stmt :: rest => by
      simp only [lowerStmts, names_lowerStmts _ rest, names_lowerStmt names stmt,
        Stmt.operationsAll, Stmt.controlsAll, Nat.add_assoc, Nat.mul_add]

end

theorem names_lowerPieces (names : NameSupply) (pieces : List Piece) :
    (lowerPieces table names pieces).1.names =
      ⟨names.temps + (pieces.map Piece.operations).sum,
        names.labels + 2 * (pieces.map Piece.controls).sum⟩ := by
  induction pieces generalizing names with
  | nil => rfl
  | cons piece rest inductionHypothesis =>
      have first : (lowerPiece table names piece).1.names =
          ⟨names.temps + piece.operations, names.labels + 2 * piece.controls⟩ := by
        cases piece with
        | stmt stmt => exact names_lowerStmt table globalScope names stmt
        | expr expr => exact names_lowerExpr table globalScope names expr
      show (lowerPieces table (lowerPiece table names piece).1.names rest).1.names = _
      simp only [first, inductionHypothesis, List.map_cons, List.sum_cons, Nat.add_assoc,
        Nat.mul_add]

theorem names_lowerFunctions (names : NameSupply) (functions : List FunctionDecl) :
    (lowerFunctions table names functions).names =
      ⟨names.temps + (Program.mk functions).operations,
        names.labels + 2 * (Program.mk functions).controls⟩ := by
  induction functions generalizing names with
  | nil => rfl
  | cons function rest inductionHypothesis =>
      simp only [lowerFunctions, lowerFunction, inductionHypothesis, names_lowerStmts,
        Program.operations, Program.controls, List.map_cons, List.sum_cons, Nat.add_assoc,
        Nat.mul_add]

end Lowering

theorem Program.namesAfter_eq (program : Program) (table : Table)
    (pieces : List Lowering.Piece) :
    program.namesAfter table pieces =
      ⟨(pieces.map Lowering.Piece.operations).sum + program.operations,
        2 * ((pieces.map Lowering.Piece.controls).sum + program.controls)⟩ := by
  simp only [namesAfter, Lowering.names_lowerFunctions, Lowering.names_lowerPieces,
    NameSupply.start, Nat.zero_add, Nat.mul_add]

/-! ### The form of instructions -/

/-- An instruction that leaves temporaries to operations and the empty operand to returns. -/
structure Instruction.Tidy (instruction : Instruction) : Prop where
  writes : ∀ temp, instruction.temp? = some temp →
    ∃ op left right, instruction = .binary temp op left right
  empty : .empty ∈ instruction.operands → instruction = .assign .ret .empty

namespace Instruction.Tidy

theorem assign {dest : Dest} {value : Operand}
    (noWrite : (Instruction.assign dest value).temp? = none) (given : value ≠ .empty) :
    Tidy (.assign dest value) where
  writes := by
    intro temp written
    rw [noWrite] at written
    cases written
  empty := fun isEmpty => absurd (List.mem_singleton.1 isEmpty).symm given

theorem binary (temp : Temp) (op : Operator) {left right : Operand} (givenLeft : left ≠ .empty)
    (givenRight : right ≠ .empty) : Tidy (.binary temp op left right) where
  writes := by
    intro other written
    cases written
    exact ⟨op, left, right, rfl⟩
  empty := by
    intro isEmpty
    rcases List.mem_pair.1 isEmpty with isLeft | isRight
    · exact absurd isLeft.symm givenLeft
    · exact absurd isRight.symm givenRight

theorem ifFalseGoto {cond : Operand} (target : Label) (given : cond ≠ .empty) :
    Tidy (.ifFalseGoto cond target) where
  writes := nofun
  empty := fun isEmpty => absurd (List.mem_singleton.1 isEmpty).symm given

theorem silent (instruction : Instruction) (noWrite : instruction.temp? = none)
    (noRead : instruction.operands = []) : instruction.Tidy where
  writes := by
    intro temp written
    rw [noWrite] at written
    cases written
  empty := by
    intro isEmpty
    rw [noRead] at isEmpty
    cases isEmpty

theorem returnNothing : Tidy (.assign .ret .empty) := ⟨nofun, fun _ => rfl⟩

end Instruction.Tidy

def Code.Tidy (code : Code) : Prop := ∀ instruction ∈ code, instruction.Tidy

namespace Code.Tidy

variable {front back : Code}

theorem nil : Code.Tidy [] := fun _ member => nomatch member

theorem single {instruction : Instruction} (tidy : instruction.Tidy) :
    Code.Tidy [instruction] := by
  intro other member
  rw [List.mem_singleton.1 member]
  exact tidy

theorem append (left : front.Tidy) (right : back.Tidy) : Code.Tidy (front ++ back) := by
  intro instruction member
  rcases List.mem_append.1 member with inFront | inBack
  · exact left instruction inFront
  · exact right instruction inBack

end Code.Tidy

namespace Lowering

open Code (Tidy Draws Wired)

variable (table : Table) (scope : String)

theorem operand_lowerExpr_ne_empty (names : NameSupply) : ∀ expr : Expr,
    (lowerExpr table scope names expr).operand ≠ .empty
  | .binary _ _ _ => nofun
  | .ident _ => nofun
  | .int _ => nofun
  | .paren inner => operand_lowerExpr_ne_empty names inner
  | .call _ _ => nofun

mutual

theorem tidy_lowerExpr (names : NameSupply) : ∀ expr : Expr,
    Tidy (lowerExpr table scope names expr).code
  | .binary op left right =>
      ((tidy_lowerExpr names left).append (tidy_lowerExpr _ right)).append
        (.single (.binary _ op (operand_lowerExpr_ne_empty table scope _ left)
          (operand_lowerExpr_ne_empty table scope _ right)))
  | .ident _ => .nil
  | .int _ => .nil
  | .paren inner => tidy_lowerExpr names inner
  | .call _ args => tidy_lowerArgs names args

theorem tidy_lowerArgs (names : NameSupply) : ∀ args : List Expr,
    Tidy (lowerArgs table scope names args).code
  | [] => .nil
  | arg :: rest =>
      ((tidy_lowerExpr names arg).append
        (.single (.assign rfl (operand_lowerExpr_ne_empty table scope _ arg)))).append
        (tidy_lowerArgs _ rest)

end

/-- An expression, and an assignment of its value. -/
theorem tidy_evalThen {dest : Dest}
    (noWrite : ∀ value, (Instruction.assign dest value).temp? = none) (names : NameSupply)
    (expr : Expr) :
    let value := lowerExpr table scope names expr
    Tidy (value.code ++ [.assign dest value.operand]) :=
  (tidy_lowerExpr table scope names expr).append
    (.single (.assign (noWrite _) (operand_lowerExpr_ne_empty table scope names expr)))

theorem tidy_lowerDeclaration (names : NameSupply) (declaration : Declaration) :
    Tidy (lowerDeclaration table scope names declaration).code := by
  unfold lowerDeclaration
  cases declaration.init with
  | none => exact .nil
  | some init => exact tidy_evalThen table scope (fun _ => rfl) names init

theorem tidy_lowerInit (names : NameSupply) (init : LoopInit) :
    Tidy (lowerInit table scope names init).code := by
  cases init with
  | declare declaration => exact tidy_lowerDeclaration table scope names declaration
  | assign assignment => exact tidy_evalThen table scope (fun _ => rfl) names assignment.value

theorem tidy_branchCode {cond : Value} {thenCode elseCode : Code} (elseLabel endLabel : Label)
    (test : Tidy cond.code) (given : cond.operand ≠ .empty) (first : Tidy thenCode)
    (second : Tidy elseCode) :
    Tidy (branchCode cond elseLabel endLabel thenCode elseCode) := by
  have branch := Tidy.single (.ifFalseGoto elseLabel given)
  have skip := (Tidy.single (.silent (.goto endLabel) rfl rfl)).append
    (.single (.silent (.label elseLabel) rfl rfl))
  have closing := Tidy.single (.silent (.label endLabel) rfl rfl)
  exact ((((test.append branch).append first).append skip).append second).append closing

theorem tidy_loopCode {cond : Value} {bodyCode : Code} (startLabel endLabel : Label)
    (test : Tidy cond.code) (given : cond.operand ≠ .empty) (body : Tidy bodyCode) :
    Tidy (loopCode cond startLabel endLabel bodyCode) := by
  have opening := Tidy.single (.silent (.label startLabel) rfl rfl)
  have branch := Tidy.single (.ifFalseGoto endLabel given)
  have closing := (Tidy.single (.silent (.goto startLabel) rfl rfl)).append
    (.single (.silent (.label endLabel) rfl rfl))
  exact (((opening.append test).append branch).append body).append closing

mutual

theorem tidy_lowerStmt (names : NameSupply) : ∀ stmt : Stmt,
    Tidy (lowerStmt table scope names stmt).code
  | .declare declaration => tidy_lowerDeclaration table scope names declaration
  | .assign assignment => tidy_evalThen table scope (fun _ => rfl) names assignment.value
  | .branch cond thenBlock none =>
      tidy_branchCode _ _ (tidy_lowerExpr table scope names cond)
        (operand_lowerExpr_ne_empty table scope names cond) (tidy_lowerStmts _ thenBlock) .nil
  | .branch cond thenBlock (some elseBlock) =>
      tidy_branchCode _ _ (tidy_lowerExpr table scope names cond)
        (operand_lowerExpr_ne_empty table scope names cond) (tidy_lowerStmts _ thenBlock)
        (tidy_lowerStmts _ elseBlock)
  | .whileLoop cond body =>
      tidy_loopCode _ _ (tidy_lowerExpr table scope _ cond)
        (operand_lowerExpr_ne_empty table scope _ cond) (tidy_lowerStmts _ body)
  | .forLoop init cond update body =>
      (tidy_lowerInit table scope names init).append
        (tidy_loopCode _ _ (tidy_lowerExpr table scope _ cond)
          (operand_lowerExpr_ne_empty table scope _ cond)
          ((tidy_lowerStmts _ body).append
            (tidy_evalThen table scope (fun _ => rfl) _ update.value)))
  | .ret none => .single .returnNothing
  | .ret (some value) => tidy_evalThen table scope (fun _ => rfl) names value
  | .call callee args => tidy_lowerExpr table scope names (.call callee args)
  | .block stmts => tidy_lowerStmts names stmts

theorem tidy_lowerStmts (names : NameSupply) : ∀ stmts : List Stmt,
    Tidy (lowerStmts table scope names stmts).code
  | [] => .nil
  | stmt :: rest => (tidy_lowerStmt names stmt).append (tidy_lowerStmts _ rest)

end

theorem tidy_lowerFunctions (names : NameSupply) (functions : List FunctionDecl) :
    Tidy (lowerFunctions table names functions).code := by
  induction functions generalizing names with
  | nil => exact .nil
  | cons function rest inductionHypothesis =>
      have entry := Tidy.single (.silent (.label (.function function.name.name)) rfl rfl)
      have body := tidy_lowerStmts table function.name.name names function.body
      exact (entry.append body).append (inductionHypothesis _)

/-! ### Pieces -/

theorem draws_lowerPieces (names : NameSupply) (pieces : List Piece) :
    Draws names (lowerPieces table names pieces).1.code
      (lowerPieces table names pieces).1.names := by
  induction pieces generalizing names with
  | nil => exact .nil names
  | cons piece rest inductionHypothesis =>
      cases piece with
      | stmt stmt =>
          exact (draws_lowerStmt table globalScope names stmt).append (inductionHypothesis _)
      | expr expr =>
          exact (draws_lowerExpr table globalScope names expr).append (inductionHypothesis _)

theorem wired_lowerPieces (names : NameSupply) (pieces : List Piece) :
    Wired names.temps (lowerPieces table names pieces).1.code
      (lowerPieces table names pieces).1.names.temps := by
  induction pieces generalizing names with
  | nil => exact .nil _
  | cons piece rest inductionHypothesis =>
      cases piece with
      | stmt stmt =>
          exact (sound_lowerStmt table globalScope names stmt).wired.append (inductionHypothesis _)
      | expr expr =>
          exact (feeds_lowerExpr table globalScope names expr).wired.append (inductionHypothesis _)

theorem tidy_lowerPieces (names : NameSupply) (pieces : List Piece) :
    Tidy (lowerPieces table names pieces).1.code := by
  induction pieces generalizing names with
  | nil => exact .nil
  | cons piece rest inductionHypothesis =>
      cases piece with
      | stmt stmt =>
          exact (tidy_lowerStmt table globalScope names stmt).append (inductionHypothesis _)
      | expr expr =>
          exact (tidy_lowerExpr table globalScope names expr).append (inductionHypothesis _)

theorem value_lowerPieces_ne_empty (names : NameSupply) (pieces : List Piece) :
    some .empty ∉ (lowerPieces table names pieces).2 := by
  induction pieces generalizing names with
  | nil => exact List.not_mem_nil
  | cons piece rest inductionHypothesis =>
      intro member
      rcases List.mem_cons.1 member with isFirst | later
      · cases piece with
        | stmt stmt => cases isFirst
        | expr expr =>
            exact operand_lowerExpr_ne_empty table globalScope names expr
              (Option.some.inj isFirst).symm
      · exact inductionHypothesis _ later

end Lowering

/-! ### Pieces and then a program -/

namespace Program

variable (program : Program) (table : Table) (pieces : List Lowering.Piece)

theorem draws_lowerAfter : Code.Draws .start (program.lowerAfter table pieces).1
    (program.namesAfter table pieces) :=
  (Lowering.draws_lowerPieces table .start pieces).append
    (Lowering.draws_lowerFunctions table _ program.functions)

theorem wired_lowerAfter : Code.Wired 0 (program.lowerAfter table pieces).1
    (program.namesAfter table pieces).temps :=
  (Lowering.wired_lowerPieces table .start pieces).append
    (Lowering.wired_lowerFunctions table _ program.functions)

theorem tidy_lowerAfter : Code.Tidy (program.lowerAfter table pieces).1 :=
  (Lowering.tidy_lowerPieces table .start pieces).append
    (Lowering.tidy_lowerFunctions table _ program.functions)

end Program

/-- Pieces and then a program take one temporary for each operation or call and two block labels for
each branch or loop. If the names do not run out, each label that was taken is defined once and no
other one is; a jump has been emitted for a branch or a loop, and goes to a label in the code of
that statement; each temporary is written at most once, by an operation, and read at most once, with
nothing but evaluation from the write to the read; and only a return has the empty operand. -/
theorem lowerAfter_structured (program : Program) (table : Table) (pieces : List Lowering.Piece)
    (fewTemps : (program.namesAfter table pieces).temps < 2 ^ 32)
    (fewLabels : (program.namesAfter table pieces).labels < 2 ^ 32) :
    let code := (program.lowerAfter table pieces).1
    let values := (program.lowerAfter table pieces).2
    let names := program.namesAfter table pieces
    names.temps = (pieces.map Lowering.Piece.operations).sum + program.operations ∧
      names.labels = 2 * ((pieces.map Lowering.Piece.controls).sum + program.controls) ∧
      (∀ block, code.count (.label (.block block)) =
        if block.toNat < names.labels then 1 else 0) ∧
      (∀ index instruction target, code[index]? = some instruction →
        instruction.jumpTarget? = some target →
          (∃ site, program.Lowers table pieces site ∧ site.Emits table index) ∧
          ∀ site, program.Lowers table pieces site → site.Emits table index →
            site.stmt.isControl = true ∧ site.HeldBy table code ∧
              ∃ block goal, target = .block block ∧ site.Covers table goal ∧
                code[goal]? = some (.label target)) ∧
      (∀ temp, code.writeCount temp ≤ 1 ∧ code.readCount temp ≤ 1) ∧
      (∀ instruction ∈ code, ∀ temp, instruction.temp? = some temp →
        ∃ op left right, instruction = .binary temp op left right) ∧
      (∀ temp (source index : Nat) (writer reader : Instruction), code[source]? = some writer →
        writer.temp? = some temp → code[index]? = some reader → temp ∈ reader.readTemps →
          source < index ∧ ∀ (between : Nat) (other : Instruction), source < between →
            between < index → code[between]? = some other → other.isEvaluation = true) ∧
      (∀ instruction ∈ code, .empty ∈ instruction.operands → instruction = .assign .ret .empty) ∧
      some .empty ∉ values := by
  have taken := program.namesAfter_eq table pieces
  have draws := program.draws_lowerAfter table pieces
  have wired := program.wired_lowerAfter table pieces
  have tidy := program.tidy_lowerAfter table pieces
  have writes := wired.writeCount_le_one (Nat.le_of_lt fewTemps)
  have reads := wired.readCount_le_one (Nat.le_of_lt fewTemps)
  refine ⟨by rw [taken], by rw [taken], ?_, ?_, fun temp => ⟨writes temp, reads temp⟩, ?_, ?_, ?_,
    Lowering.value_lowerPieces_ne_empty table .start pieces⟩
  · intro block
    have defined := draws.labels.defines (Nat.le_of_lt fewLabels) block
    rw [Code.labelCount_eq_count, span] at defined
    simpa [NameSupply.start] using defined
  · intro index instruction target fetched jumps
    refine ⟨Program.exists_emitter fetched jumps, ?_⟩
    intro site lowers emits
    have held := lowers.heldBy
    exact ⟨emits.isControl held fetched jumps, held, held.exists_target emits.1 fetched jumps⟩
  · exact fun instruction member => (tidy instruction member).writes
  · intro temp source index writer reader atSource written atIndex read
    exact (wired.fed (Nat.le_of_lt fewTemps)).of_write (writes temp) atSource written atIndex read
  · exact fun instruction member => (tidy instruction member).empty

section

open Shorthand

/-- A branch in a loop before a function with a loop. The jump over the second block of the branch
stays within the branch, and the test of the first loop is read right after it has been made. -/
theorem lowerAfter_structured_nested :
    let pieces : List Lowering.Piece :=
      [.expr (call "f" [binary .add (var "n") (int 1)]),
        .stmt (whileLoop (binary .gt (var "n") (int 0)) [branch (var "n") [ret none] none])]
    let program : Program := ⟨[function "f" ["n"]
      [forLoop (.assign (assignment "i" (int 0))) (binary .lt (var "i") (var "n"))
        (assignment "i" (binary .add (var "i") (int 1))) [callStmt "f" [var "i"]]]]⟩
    let code := (program.lowerAfter .start pieces).1
    let names := program.namesAfter .start pieces
    names.temps < 2 ^ 32 ∧ names.labels < 2 ^ 32 ∧ names = ⟨6, 6⟩ ∧
      names.temps = (pieces.map Lowering.Piece.operations).sum + program.operations ∧
      names.labels = 2 * ((pieces.map Lowering.Piece.controls).sum + program.controls) ∧
      (∀ block, code.count (.label (.block block)) =
        if block.toNat < names.labels then 1 else 0) ∧
      code[7]? = some (.goto (.block 3)) ∧
      (∃ site, program.Lowers .start pieces site ∧ site.Emits .start 7 ∧
        site.stmt.isControl = true ∧ site.HeldBy .start code ∧
          ∃ goal, site.Covers .start goal ∧ code[goal]? = some (.label (.block 3))) ∧
      (∀ temp, code.writeCount temp ≤ 1 ∧ code.readCount temp ≤ 1) ∧
      code[3]? = some (.binary ⟨2⟩ .gt (.slot (.var "n")) (.const 0)) ∧
      (∀ index reader, code[index]? = some reader → ⟨2⟩ ∈ Instruction.readTemps reader →
        3 < index) ∧
      (∀ instruction ∈ code, .empty ∈ instruction.operands →
        instruction = .assign .ret .empty) := by
  intro pieces program code names
  have fewTemps : names.temps < 2 ^ 32 := by decide
  have fewLabels : names.labels < 2 ^ 32 := by decide
  have jump : code[7]? = some (.goto (.block 3)) := by decide
  have write : code[3]? = some (.binary ⟨2⟩ .gt (.slot (.var "n")) (.const 0)) := by decide
  obtain ⟨temps, labels, defined, jumps, once, _, fed, empty, _⟩ :=
    lowerAfter_structured program .start pieces fewTemps fewLabels
  obtain ⟨⟨site, lowers, emits⟩, stays⟩ := jumps 7 _ _ jump rfl
  obtain ⟨isControl, held, block, goal, isBlock, covers, atGoal⟩ := stays site lowers emits
  refine ⟨fewTemps, fewLabels, by decide, temps, labels, defined, jump,
    ⟨site, lowers, emits, isControl, held, goal, covers, atGoal⟩, once, write, ?_, empty⟩
  intro index reader atIndex reads
  exact (fed _ 3 index _ reader write rfl atIndex reads).1

end

end MiddleEnd
