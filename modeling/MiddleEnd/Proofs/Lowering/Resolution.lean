import MiddleEnd.Proofs.Compilation.Visibility
import MiddleEnd.Proofs.Lowering.Meaning

/-!
Contract: lowering finds every name of an accepted program, and finds it under the name itself.

The analyzer resolves a name in the table as it is at the place of use, lowering in the finished one.
The two may find different symbols: a variable that is declared after a call of the function of that
name is what lowering finds for the call. Symbols are never removed, so lowering finds one wherever
the analyzer did, and a symbol is always found under its own name. Lowering therefore gives the same
code with the table as without it, also for a program with errors (`lower_resolves`).

Owns: that lowering reads a table through `resolve` alone, and what `resolve` finds after analysis.
Does not own: what the symbols are (`MiddleEnd.Proofs.Analysis.Diagnostics`).
-/

namespace MiddleEnd

/-! ### Names in the finished table -/

/-- In a history without violations the name of every event is declared, in the scope of the event
or in the global one. -/
theorem History.declaration?_of_mem {history : History} (clean : history.violations = [])
    {event : Event} (member : event ∈ history) :
    (history.declaration? event.scope event.name).isSome ∨
      (history.declaration? globalScope event.name).isSome := by
  obtain ⟨past, rest, rfl⟩ := List.append_of_mem member
  cases event with
  | declare scope declared => exact Or.inl (declaration?_isSome_iff.2 ⟨declared, member, rfl⟩)
  | use kind scope ident =>
      obtain ⟨place, declared, visible, declares, isName⟩ := exists_declare_of_use clean
      have found : (History.declaration? (past ++ .use kind scope ident :: rest) place
          ident.name).isSome :=
        declaration?_isSome_iff.2 ⟨declared, List.mem_append_left _ declares, isName⟩
      rcases visible with isOwn | isGlobal
      · exact Or.inl (isOwn ▸ found)
      · exact Or.inr (isGlobal ▸ found)

namespace Program

theorem lookupIn_analyze_isSome (program : Program) (scope name : String) :
    (program.analyze.table.lookupIn scope name).isSome =
      (program.events.declaration? scope name).isSome := by
  rw [analyze_lookupIn, Option.isSome_map]

theorem exists_symbol_of_bodyEvent {program : Program} (clean : program.events.violations = [])
    {function : FunctionDecl} (present : function ∈ program.functions) {event : Event}
    (member : event ∈ function.bodyEvents) :
    ∃ symbol, (program.analyze.table.lookupIn function.name.name event.name).or
      (program.analyze.table.lookupIn globalScope event.name) = some symbol := by
  have inProgram : event ∈ program.events :=
    List.mem_flatMap.2
      ⟨function, present, List.mem_cons_of_mem _ (List.mem_append_right _ member)⟩
  have inFunction : event.scope = function.name.name :=
    Stmt.within_eventsAll function.name.name function.body event member
  rw [← Option.isSome_iff_exists, Option.isSome_or, lookupIn_analyze_isSome,
    lookupIn_analyze_isSome, Bool.or_eq_true, ← inFunction]
  exact History.declaration?_of_mem clean inProgram

end Program

/-! ### Lowering against two tables -/

namespace Lowering

variable {table other : Table} {scope : String}

mutual

theorem lowerExpr_congr (same : ∀ ident, resolve table scope ident = resolve other scope ident) :
    ∀ (expr : Expr) (names : NameSupply),
      lowerExpr table scope names expr = lowerExpr other scope names expr
  | .binary _ left right, names => by
      simp only [lowerExpr, lowerExpr_congr same left, lowerExpr_congr same right]
  | .ident name, names => by simp only [lowerExpr, same]
  | .int _, _ => rfl
  | .paren inner, names => lowerExpr_congr same inner names
  | .call _ args, names => by simp only [lowerExpr, lowerArgs_congr same args]

theorem lowerArgs_congr (same : ∀ ident, resolve table scope ident = resolve other scope ident) :
    ∀ (args : List Expr) (names : NameSupply),
      lowerArgs table scope names args = lowerArgs other scope names args
  | [], _ => rfl
  | arg :: rest, names => by
      simp only [lowerArgs, lowerExpr_congr same arg, lowerArgs_congr same rest]

end

section SameNames

variable (same : ∀ ident, resolve table scope ident = resolve other scope ident)

include same

theorem lowerStore_congr (target : Ident) (expr : Expr) (names : NameSupply) :
    lowerStore table scope names target expr = lowerStore other scope names target expr := by
  simp only [lowerStore, lowerExpr_congr same, same]

theorem lowerDeclaration_congr (declaration : Declaration) (names : NameSupply) :
    lowerDeclaration table scope names declaration =
      lowerDeclaration other scope names declaration := by
  unfold lowerDeclaration
  cases declaration.init with
  | none => rfl
  | some init => exact lowerStore_congr same declaration.name init names

theorem lowerAssignment_congr (assignment : Assignment) (names : NameSupply) :
    lowerAssignment table scope names assignment = lowerAssignment other scope names assignment :=
  lowerStore_congr same assignment.target assignment.value names

theorem lowerInit_congr (init : LoopInit) (names : NameSupply) :
    lowerInit table scope names init = lowerInit other scope names init := by
  cases init with
  | declare declaration => exact lowerDeclaration_congr same declaration names
  | assign assignment => exact lowerAssignment_congr same assignment names

theorem lowerReturn_congr (value : Option Expr) (names : NameSupply) :
    lowerReturn table scope names value = lowerReturn other scope names value := by
  cases value with
  | none => rfl
  | some expr => simp only [lowerReturn, lowerExpr_congr same]

end SameNames

mutual

theorem lowerStmt_congr (same : ∀ ident, resolve table scope ident = resolve other scope ident) :
    ∀ (stmt : Stmt) (names : NameSupply),
      lowerStmt table scope names stmt = lowerStmt other scope names stmt
  | .declare declaration, names => lowerDeclaration_congr same declaration names
  | .assign assignment, names => lowerAssignment_congr same assignment names
  | .branch cond thenBlock none, names => by
      simp only [lowerStmt, lowerExpr_congr same, lowerStmts_congr same thenBlock]
  | .branch cond thenBlock (some elseBlock), names => by
      simp only [lowerStmt, lowerExpr_congr same, lowerStmts_congr same thenBlock,
        lowerStmts_congr same elseBlock]
  | .whileLoop cond body, names => by
      simp only [lowerStmt, lowerExpr_congr same, lowerStmts_congr same body]
  | .forLoop init cond update body, names => by
      simp only [lowerStmt, lowerInit_congr same, lowerExpr_congr same, lowerStmts_congr same body,
        lowerAssignment_congr same]
  | .ret value, names => lowerReturn_congr same value names
  | .call callee args, names => by
      simp only [lowerStmt, lowerExpr_congr same (.call callee args)]
  | .block stmts, names => lowerStmts_congr same stmts names

theorem lowerStmts_congr (same : ∀ ident, resolve table scope ident = resolve other scope ident) :
    ∀ (stmts : List Stmt) (names : NameSupply),
      lowerStmts table scope names stmts = lowerStmts other scope names stmts
  | [], _ => rfl
  | stmt :: rest, names => by
      simp only [lowerStmts, lowerStmt_congr same stmt, lowerStmts_congr same rest]

end

/-- Lowering reads a table only for the names that its uses resolve to. -/
theorem lowerFunctions_congr
    (same : ∀ scope ident, resolve table scope ident = resolve other scope ident)
    (functions : List FunctionDecl) (names : NameSupply) :
    lowerFunctions table names functions = lowerFunctions other names functions := by
  induction functions generalizing names with
  | nil => rfl
  | cons function rest inductionHypothesis =>
      simp only [lowerFunctions, lowerFunction, lowerStmts_congr (same function.name.name),
        inductionHypothesis]

theorem resolve_start (scope : String) (ident : Ident) :
    resolve Table.start scope ident = ident.name := by
  have nothing : Table.start.lookupIn = Log.start.lookupIn := Table.Refines.start.lookupIn
  rw [resolve, nothing]
  rfl

end Lowering

/-- If the analysis of a program reports no errors, then every identifier in the body of a function,
declared, read, assigned or called, has a symbol in the finished table, in the scope of the function
or else in the global one, and the symbol found has the name of the identifier. With or without
errors, every identifier is lowered to its own name in every scope, and the code of a program is the
same with its own table and with an empty one. -/
theorem lower_resolves (program : Program) :
    (program.analyze.errors = [] → ∀ function ∈ program.functions,
      ∀ event ∈ function.bodyEvents, ∃ symbol,
        (program.analyze.table.lookupIn function.name.name event.name).or
            (program.analyze.table.lookupIn globalScope event.name) = some symbol ∧
          symbol.name = event.name) ∧
      (∀ scope ident, Lowering.resolve program.analyze.table scope ident = ident.name) ∧
      program.lower program.analyze.table = program.lower Table.start := by
  refine ⟨?_, Lowering.resolve_analyze program, ?_⟩
  · intro clean function present event member
    obtain ⟨symbol, found⟩ := Program.exists_symbol_of_bodyEvent
      (Program.violations_of_errors clean) present member
    refine ⟨symbol, found, ?_⟩
    rcases Option.or_eq_some_iff.1 found with own | ⟨_, shared⟩
    · exact analyze_lookupIn_name own
    · exact analyze_lookupIn_name shared
  · have sameNames (scope : String) (ident : Ident) :
        Lowering.resolve program.analyze.table scope ident =
          Lowering.resolve Table.start scope ident :=
      (Lowering.resolve_analyze program scope ident).trans
        (Lowering.resolve_start scope ident).symm
    exact congrArg Lowering.Fragment.code
      (Lowering.lowerFunctions_congr sameNames program.functions .start)

open Shorthand in
/-- The call stands for the function when it is analyzed, and for the variable that is declared after
it when it is lowered. -/
theorem lower_resolves_shadowed :
    let step := function "step" [] [ret (some (int 1))]
    let main := function "main" [] [callStmt "step" [], declare "step" none]
    let sample : Program := ⟨[step, main]⟩
    let called : Event := .use .call "main" (ident "step")
    let found := (sample.analyze.table.lookupIn "main" "step").or
      (sample.analyze.table.lookupIn globalScope "step")
    sample.analyze.errors = [] ∧ called ∈ main.bodyEvents ∧
      found.map Symbol.category = some .variable ∧
      (∃ symbol, found = some symbol ∧ symbol.name = "step") ∧
      Lowering.resolve sample.analyze.table "main" (ident "step") = "step" ∧
      sample.lower sample.analyze.table = sample.lower Table.start := by
  intro step main sample called found
  have clean : sample.analyze.errors = [] := by decide
  have member : called ∈ main.bodyEvents := List.mem_cons_self ..
  have present : main ∈ sample.functions := List.mem_cons_of_mem _ (List.mem_cons_self ..)
  obtain ⟨resolved, sameName, sameCode⟩ := lower_resolves sample
  exact ⟨clean, member, by decide, resolved clean main present called member,
    sameName "main" (ident "step"), sameCode⟩

end MiddleEnd
