import MiddleEnd.Proofs.Code.Flow
import MiddleEnd.Proofs.Lowering.Meaning
import MiddleEnd.Proofs.Lowering.Wiring

/-!
Contract: which functions control gets into.

A statement returns for certain if that can be seen from its shape alone: conditions are not looked
at, and a loop may be left at its first test. The end of a lowered statement is reached from its
start exactly if the statement does not return for certain (`completes_lowerStmt`). So control gets
into a function where code is entered, or from the end of the function before it, and in no other
way (`reaches_entryIndex_iff`).

Owns: the return analysis on trees, and that reachability in lowered code follows it.
Does not own: what is done with unreachable code.
-/

namespace MiddleEnd

namespace Stmt

mutual

/-- Whether a statement returns for certain. -/
def returns : Stmt → Bool
  | .declare _ => false
  | .assign _ => false
  | .branch _ _ none => false
  | .branch _ thenBlock (some elseBlock) => anyReturns thenBlock && anyReturns elseBlock
  | .whileLoop _ _ => false
  | .forLoop _ _ _ _ => false
  | .ret _ => true
  | .call _ _ => false
  | .block stmts => anyReturns stmts

/-- Whether some statement of a list returns for certain. -/
def anyReturns : List Stmt → Bool
  | [] => false
  | stmt :: rest => stmt.returns || anyReturns rest

end

end Stmt

namespace Lowering

open Code (Completes)

variable {whole : Code}

/-! ### Branches and loops -/

section Labels

variable {cond : Value} {firstLabel secondLabel : Label} {leaves leavesFirst leavesSecond : Prop}

/-- Control gets through a branch if it gets through one of its blocks. -/
theorem completes_branchCode {thenCode elseCode : Code}
    (once : ∀ label, whole.count (.label label) ≤ 1) (test : Completes whole cond.code True)
    (first : Completes whole thenCode leavesFirst)
    (second : Completes whole elseCode leavesSecond) :
    Completes whole (branchCode cond firstLabel secondLabel thenCode elseCode)
      (leavesFirst ∨ leavesSecond) where
  passes := by
    intro start stop held
    have opening : Completes whole [.label firstLabel] True := .plain fun _ => rfl
    have closing : Completes whole [.label secondLabel] True := .plain fun _ => rfl
    obtain ⟨elseStop, toElse, heldEnd⟩ := held.append
    obtain ⟨elseStart, toSkip, heldElse⟩ := toElse.append
    obtain ⟨thenStop, toThen, heldSkip⟩ := toSkip.append
    obtain ⟨thenStart, toJump, heldThen⟩ := toThen.append
    obtain ⟨tested, heldTest, heldJump⟩ := toJump.append
    have heldBoth : whole.Holds thenStop ([.goto secondLabel] ++ [.label firstLabel]) elseStart :=
      heldSkip
    obtain ⟨elseEntry, heldGoto, heldOpening⟩ := heldBoth.append
    obtain ⟨jump, rfl⟩ := heldJump.fetch
    obtain ⟨skip, rfl⟩ := heldGoto.fetch
    have elseDefined := Code.labelIndex?_of_count_le_one (once firstLabel) heldOpening.fetch.1
    have endDefined := Code.labelIndex?_of_count_le_one (once secondLabel) heldEnd.fetch.1
    have inTest := heldTest.le
    have inThen := heldThen.le
    have inOpening := heldOpening.le
    have inElse := heldElse.le
    have inEnd := heldEnd.le
    have onTrue : whole.Passes start stop (tested + 1) elseStop (leavesFirst ∧ True) :=
      ((first.passes heldThen).widen (by omega) (by omega)).trans
        (.goto ⟨by omega, by omega⟩ skip endDefined)
    have onFalse : whole.Passes start stop (thenStop + 1) elseStop (True ∧ leavesSecond) :=
      ((opening.passes heldOpening).widen (by omega) (by omega)).trans
        ((second.passes heldElse).widen (by omega) (by omega))
    have fork := Code.Passes.fork ⟨by omega, by omega⟩
      (Code.flow_ifFalseGoto_iff jump elseDefined) onTrue onFalse
    have all := (((test.passes heldTest).widen (by omega) (by omega)).trans fork).trans
      ((closing.passes heldEnd).widen (by omega) (by omega))
    exact all.congr (by simp only [and_true, true_and])

/-- Control gets through a loop whatever its body does. -/
theorem completes_loopCode {bodyCode : Code} (once : ∀ label, whole.count (.label label) ≤ 1)
    (test : Completes whole cond.code True) (body : Completes whole bodyCode leaves) :
    Completes whole (loopCode cond firstLabel secondLabel bodyCode) True where
  passes := by
    intro start stop held
    have opening : Completes whole [.label firstLabel] True := .plain fun _ => rfl
    have closing : Completes whole [.label secondLabel] True := .plain fun _ => rfl
    obtain ⟨bodyStop, toBody, heldBack⟩ := held.append
    obtain ⟨bodyStart, toJump, heldBody⟩ := toBody.append
    obtain ⟨tested, toTest, heldJump⟩ := toJump.append
    obtain ⟨_, heldOpening, _⟩ := toTest.append
    have heldBoth : whole.Holds bodyStop ([.goto firstLabel] ++ [.label secondLabel]) stop :=
      heldBack
    obtain ⟨goal, heldGoto, heldClosing⟩ := heldBoth.append
    obtain ⟨jump, rfl⟩ := heldJump.fetch
    obtain ⟨again, rfl⟩ := heldGoto.fetch
    have startDefined := Code.labelIndex?_of_count_le_one (once firstLabel) heldOpening.fetch.1
    have endDefined := Code.labelIndex?_of_count_le_one (once secondLabel) heldClosing.fetch.1
    have inTest := toTest.le
    have inBody := heldBody.le
    have inClosing := heldClosing.le
    have tests : whole.Passes start stop start tested True :=
      (((opening.append test).passes toTest).widen (by omega) (by omega)).congr and_self_iff
    have around : whole.Passes start stop (tested + 1) start (leaves ∧ True) :=
      ((body.passes heldBody).widen (by omega) (by omega)).trans
        (.goto ⟨by omega, by omega⟩ again startDefined)
    have loop := tests.loop ⟨by omega, by omega⟩ (Code.flow_ifFalseGoto_iff jump endDefined) around
    have all := loop.trans ((closing.passes heldClosing).widen (by omega) (by omega))
    exact all.congr and_self_iff

end Labels

/-! ### Statements -/

theorem successors_of_isEvaluation {instruction : Instruction}
    (evaluation : instruction.isEvaluation = true) (index : Nat) :
    whole.successors index instruction = [index + 1] := by
  cases instruction with
  | assign dest _ =>
      cases dest with
      | slot _ => rfl
      | ret => cases evaluation
      | param => rfl
  | binary _ _ _ _ => rfl
  | label _ => rfl
  | goto _ => cases evaluation
  | ifFalseGoto _ _ => cases evaluation

variable (table : Table) (scope : String)

theorem completes_lowerExpr (names : NameSupply) (expr : Expr) :
    Completes whole (lowerExpr table scope names expr).code True := by
  apply Completes.straight
  intro instruction member
  exact successors_of_isEvaluation
    ((feeds_lowerExpr table scope names expr).uniform instruction member)

theorem completes_lowerStore (names : NameSupply) (target : Ident) (expr : Expr) :
    Completes whole (lowerStore table scope names target expr).code True :=
  ((completes_lowerExpr table scope names expr).append (.plain fun _ => rfl)).congr and_self_iff

theorem completes_lowerDeclaration (names : NameSupply) (declaration : Declaration) :
    Completes whole (lowerDeclaration table scope names declaration).code True := by
  unfold lowerDeclaration
  cases declaration.init with
  | none => exact .nil
  | some init => exact completes_lowerStore table scope names declaration.name init

theorem completes_lowerInit (names : NameSupply) (init : LoopInit) :
    Completes whole (lowerInit table scope names init).code True := by
  cases init with
  | declare declaration => exact completes_lowerDeclaration table scope names declaration
  | assign assignment => exact completes_lowerStore table scope names _ _

theorem completes_lowerReturn (names : NameSupply) (value : Option Expr) :
    Completes whole (lowerReturn table scope names value).code False := by
  cases value with
  | none => exact .ret .empty
  | some expr =>
      exact ((completes_lowerExpr table scope names expr).append (.ret _)).congr
        (iff_of_eq (and_false _))

mutual

/-- Control gets through a lowered statement exactly if it does not return for certain. -/
theorem completes_lowerStmt (once : ∀ label, whole.count (.label label) ≤ 1)
    (names : NameSupply) : ∀ stmt : Stmt,
    Completes whole (lowerStmt table scope names stmt).code (stmt.returns = false)
  | .declare declaration =>
      (completes_lowerDeclaration table scope names declaration).congr (by simp [Stmt.returns])
  | .assign assignment =>
      (completes_lowerStore table scope names assignment.target assignment.value).congr
        (by simp [Stmt.returns])
  | .branch cond thenBlock none =>
      (completes_branchCode once (completes_lowerExpr table scope names cond)
        (completes_lowerStmts once _ thenBlock) .nil).congr (by simp [Stmt.returns])
  | .branch cond thenBlock (some elseBlock) =>
      (completes_branchCode once (completes_lowerExpr table scope names cond)
        (completes_lowerStmts once _ thenBlock)
        (completes_lowerStmts once _ elseBlock)).congr
        (by rw [Stmt.returns, Bool.and_eq_false_iff])
  | .whileLoop cond body =>
      (completes_loopCode once (completes_lowerExpr table scope names.takeLabel.takeLabel cond)
        (completes_lowerStmts once _ body)).congr (by simp [Stmt.returns])
  | .forLoop init cond update body =>
      ((completes_lowerInit table scope names init).append
        (completes_loopCode once
          (completes_lowerExpr table scope
            (lowerInit table scope names init).names.takeLabel.takeLabel cond)
          ((completes_lowerStmts once _ body).append
            (completes_lowerStore table scope _ update.target update.value)))).congr
        (by simp [Stmt.returns])
  | .ret value =>
      (completes_lowerReturn table scope names value).congr (by simp [Stmt.returns])
  | .call callee args =>
      (completes_lowerExpr table scope names (.call callee args)).congr (by simp [Stmt.returns])
  | .block stmts =>
      (completes_lowerStmts once names stmts).congr (by simp [Stmt.returns])

theorem completes_lowerStmts (once : ∀ label, whole.count (.label label) ≤ 1)
    (names : NameSupply) : ∀ stmts : List Stmt,
    Completes whole (lowerStmts table scope names stmts).code (Stmt.anyReturns stmts = false)
  | [] => Completes.nil.congr (by simp [Stmt.anyReturns])
  | stmt :: rest =>
      ((completes_lowerStmt once names stmt).append (completes_lowerStmts once _ rest)).congr
        (by simp [Stmt.anyReturns])

end

theorem completes_lowerFunction (once : ∀ label, whole.count (.label label) ≤ 1)
    (names : NameSupply) (function : FunctionDecl) :
    Completes whole (lowerFunction table names function).code
      (Stmt.anyReturns function.body = false) := by
  have entry : Completes whole [.label (.function function.name.name)] True := .plain fun _ => rfl
  exact (entry.append (completes_lowerStmts table function.name.name once names
    function.body)).congr (iff_of_eq (true_and _))

/-- The code of a function stands after that of the functions before it. -/
theorem holds_lowerFunctions (names : NameSupply) (front back : List FunctionDecl)
    (function : FunctionDecl) :
    let before := lowerFunctions table names front
    (lowerFunctions table names (front ++ function :: back)).code.Holds before.code.length
      (lowerFunction table before.names function).code
      (lowerFunctions table names (front ++ [function])).code.length where
  split := by
    let before := lowerFunctions table names front
    let own := lowerFunction table before.names function
    refine ⟨before.code, (lowerFunctions table own.names back).code, ?_, rfl⟩
    rw [lowerFunctions_append]
    rfl
  stop_eq := by
    rw [lowerFunctions_append]
    simp [lowerFunctions]

end Lowering

/-! ### Functions -/

namespace Program

open Lowering

/-- The functions that control gets into: the first one, the entry function, and the one after a
function that control gets into and that does not return for certain. -/
inductive Enters (program : Program) (entry : String) : Nat → Prop where
  | first : Enters program entry 0
  | named {index : Nat} {function : FunctionDecl}
      (present : program.functions[index]? = some function)
      (isEntry : function.name.name = entry) : Enters program entry index
  | falls {index : Nat} {function : FunctionDecl} (before : Enters program entry index)
      (present : program.functions[index]? = some function)
      (completes : Stmt.anyReturns function.body = false) : Enters program entry (index + 1)

variable {program : Program} {entry : String} {index position : Nat} {function : FunctionDecl}

theorem enters_iff (present : program.functions[index]? = some function) :
    program.Enters entry index ↔
      index = 0 ∨ function.name.name = entry ∨
        ∃ before previous, index = before + 1 ∧ program.functions[before]? = some previous ∧
          program.Enters entry before ∧ Stmt.anyReturns previous.body = false := by
  constructor
  · intro enters
    cases enters with
    | first => exact Or.inl rfl
    | named presentHere isEntry =>
        rw [present] at presentHere
        cases presentHere
        exact Or.inr (Or.inl isEntry)
    | falls before presentBefore completes =>
        exact Or.inr (Or.inr ⟨_, _, rfl, presentBefore, before, completes⟩)
  · rintro (rfl | isEntry | ⟨before, previous, rfl, presentBefore, enters, completes⟩)
    · exact .first
    · exact .named present isEntry
    · exact .falls enters presentBefore completes

/-- The code of a function stands between its entry and the next one. -/
theorem holds_function (present : program.functions[index]? = some function) :
    ∃ names, (program.lower program.analyze.table).Holds (program.entryIndex index)
      (lowerFunction program.analyze.table names function).code
      (program.entryIndex (index + 1)) := by
  obtain ⟨inside, isFunction⟩ := List.getElem?_eq_some_iff.1 present
  have split : program.functions =
      program.functions.take index ++ function :: program.functions.drop (index + 1) := by
    rw [← isFunction, ← List.drop_eq_getElem_cons inside, List.take_append_drop]
  have through : program.functions.take (index + 1) =
      program.functions.take index ++ [function] := by
    rw [← isFunction]
    exact List.take_succ_eq_append_getElem inside
  have held := holds_lowerFunctions program.analyze.table .start (program.functions.take index)
    (program.functions.drop (index + 1)) function
  rw [← split, ← through] at held
  exact ⟨_, held⟩

theorem getElem?_entryIndex (present : program.functions[index]? = some function) :
    (program.lower program.analyze.table)[program.entryIndex index]? =
      some (.label (.function function.name.name)) := by
  obtain ⟨names, held⟩ := holds_function present
  obtain ⟨before, after, isCode, isStart⟩ := held.split
  rw [isCode, ← isStart, List.getElem?_append_right (Nat.le_refl _), Nat.sub_self]
  rfl

theorem entryIndex_lt (present : program.functions[index]? = some function) :
    program.entryIndex index < program.entryIndex (index + 1) := by
  obtain ⟨names, held⟩ := holds_function present
  rw [held.stop_eq, lowerFunction, List.length_cons]
  omega

theorem entryIndex_mono (program : Program) : Monotone program.entryIndex := by
  apply monotone_nat_of_le_succ
  intro index
  rw [entryIndex, entryIndex, List.take_add_one, lowerFunctions_append, List.length_append]
  exact Nat.le_add_right _ _

theorem entryIndex_length (program : Program) :
    program.entryIndex program.functions.length =
      (program.lower program.analyze.table).length := by
  rw [entryIndex, List.take_length]
  rfl

/-- The entry of a function lies in the code of no other function. -/
theorem index_eq_of_entryIndex_le {other : Nat}
    (present : program.functions[index]? = some function)
    (above : program.entryIndex other ≤ program.entryIndex index)
    (below : program.entryIndex index < program.entryIndex (other + 1)) : index = other := by
  have notLater : ¬other + 1 ≤ index := by
    intro later
    have order := program.entryIndex_mono later
    omega
  have notEarlier : ¬index + 1 ≤ other := by
    intro earlier
    have order := program.entryIndex_mono earlier
    have own := entryIndex_lt present
    omega
  omega

/-- An index in the region of a function that control gets into. -/
def Visits (program : Program) (entry : String) (position : Nat) : Prop :=
  ∃ index function region, program.functions[index]? = some function ∧
    program.Enters entry index ∧
    (program.lower program.analyze.table).Confined region (program.entryIndex index)
      (program.entryIndex (index + 1)) (program.entryIndex (index + 1))
      (Stmt.anyReturns function.body = false) ∧
    position ∈ region

section Once

variable (once : ∀ label, (program.lower program.analyze.table).count (.label label) ≤ 1)

include once

theorem passes_function (present : program.functions[index]? = some function) :
    (program.lower program.analyze.table).Passes (program.entryIndex index)
      (program.entryIndex (index + 1)) (program.entryIndex index) (program.entryIndex (index + 1))
      (Stmt.anyReturns function.body = false) := by
  obtain ⟨names, held⟩ := holds_function present
  exact (completes_lowerFunction program.analyze.table once names function).passes held

theorem visits_entryIndex (enters : program.Enters entry index)
    (present : program.functions[index]? = some function) :
    program.Visits entry (program.entryIndex index) := by
  obtain ⟨region, confined, starts⟩ := (passes_function once present).stays
  rcases starts with inRegion | ⟨_, isStop⟩
  · exact ⟨index, function, region, present, enters, confined, inRegion⟩
  · have nonempty := entryIndex_lt present
    omega

theorem Visits.flow {other : Nat} (visits : program.Visits entry position)
    (flow : (program.lower program.analyze.table).Flow position other)
    (valid : other < (program.lower program.analyze.table).length) :
    program.Visits entry other := by
  obtain ⟨index, function, region, present, enters, confined, inRegion⟩ := visits
  rcases confined.flows position inRegion other flow with inside | ⟨completes, rfl⟩
  · exact ⟨index, function, region, present, enters, confined, inside⟩
  · -- Control falls from the end of the function into the next one.
    have isNext : index + 1 < program.functions.length := by
      by_contra isLast
      have order := program.entryIndex_mono (Nat.le_of_not_lt isLast)
      rw [entryIndex_length] at order
      omega
    exact visits_entryIndex once (enters.falls present completes)
      (List.getElem?_eq_getElem isNext)

theorem visits_of_reaches
    (reached : (program.lower program.analyze.table).Reaches entry position) :
    program.Visits entry position := by
  induction reached with
  | first inside =>
      have nonempty : 0 < program.functions.length := by
        by_contra isEmpty
        have isNil := List.length_eq_zero_iff.1 (Nat.eq_zero_of_not_pos isEmpty)
        simp [lower, isNil, lowerFunctions] at inside
      exact visits_entryIndex once .first (List.getElem?_eq_getElem nonempty)
  | @entered position defined =>
      have fetched := Code.getElem?_of_labelIndex? defined
      have counted := List.count_pos_iff.2 (List.mem_of_getElem? fetched)
      rw [lower, count_entry_lowerFunctions, List.count_pos_iff, List.mem_map] at counted
      obtain ⟨function, member, rfl⟩ := counted
      obtain ⟨index, present⟩ := List.mem_iff_getElem?.1 member
      rw [Code.index_eq_of_count_le_one (once _) fetched (getElem?_entryIndex present)]
      exact visits_entryIndex once (.named present rfl) present
  | @jump position target instruction label _ fetched jumps defined inductionHypothesis =>
      refine inductionHypothesis.flow once ⟨instruction, fetched, ?_⟩
        (Code.lt_length_of_labelIndex? defined)
      exact (Code.mem_successors_iff ..).2 (Or.inl ⟨label, jumps, defined⟩)
  | @next position instruction _ fetched goesOn inside inductionHypothesis =>
      refine inductionHypothesis.flow once ⟨instruction, fetched, ?_⟩ inside
      exact (Code.mem_successors_iff ..).2 (Or.inr ⟨goesOn, rfl⟩)

theorem reaches_of_enters (enters : program.Enters entry index)
    (present : program.functions[index]? = some function) :
    (program.lower program.analyze.table).Reaches entry (program.entryIndex index) := by
  induction enters generalizing function with
  | first =>
      have inside := (List.getElem?_eq_some_iff.1 (getElem?_entryIndex present)).1
      exact .first inside
  | named presentHere isEntry =>
      have fetched := getElem?_entryIndex presentHere
      rw [isEntry] at fetched
      exact .entered (Code.labelIndex?_of_count_le_one (once _) fetched)
  | falls before presentBefore completes inductionHypothesis =>
      have inside := (List.getElem?_eq_some_iff.1 (getElem?_entryIndex present)).1
      have leads := (passes_function once presentBefore).arrives completes
      exact (inductionHypothesis presentBefore).leads leads inside

/-- The entry of a function is reached exactly if control gets into the function. -/
theorem reaches_entryIndex_iff (present : program.functions[index]? = some function) :
    (program.lower program.analyze.table).Reaches entry (program.entryIndex index) ↔
      program.Enters entry index := by
  constructor
  · intro reached
    obtain ⟨other, _, region, _, enters, confined, inRegion⟩ := visits_of_reaches once reached
    obtain ⟨above, below⟩ := confined.bounds _ inRegion
    rw [index_eq_of_entryIndex_le present above below]
    exact enters
  · intro enters
    exact reaches_of_enters once enters present

end Once

end Program

end MiddleEnd
