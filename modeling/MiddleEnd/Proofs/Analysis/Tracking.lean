import MiddleEnd.Proofs.Analysis.History
import MiddleEnd.Proofs.Symbols.Refinement

/-!
Contract: the analyzer keeps track of the history of its walk.

`Tracks` says that a state is what the events so far determine: its table stores the log of the
history, its errors and warnings are those of the history, and it remembers the orders of the
symbols that have a doubtful read. Each primitive of the analyzer adds one event (`Tracks.declare`,
`Tracks.read`, `Tracks.callee`, `Tracks.target`), the walk over a tree adds the events of the tree,
and a whole program leads from the empty history to its own (`tracks_program`).

Owns: the invariant of the walk.
Does not own: what a history says (`MiddleEnd.Proofs.Analysis.History`).
-/

namespace MiddleEnd

namespace Analysis

/-- A log of the declarations of a history, with the given scopes made and entered. -/
def logOf (history : History) (made entered : List String) : Log := ⟨history.entries, made, entered⟩

/-- The table of a state stores the log of a history, in which the given scopes have been entered,
and its errors are those of the history. -/
structure Logs (history : History) (entered : List String) (state : State) : Prop where
  table : ∃ made, state.table.Refines (logOf history made entered)
  errors : state.errors = history.violations

/-- All of a state is that of a history. The order of a symbol is remembered once it has a doubtful
read. -/
structure Tracks (history : History) (entered : List String) (state : State) : Prop
    extends Logs history entered state where
  warnings : state.warnings = history.doubtfulReads
  warned : ∀ order, order ∈ state.warned ↔ history.Doubts order

variable {history : History} {made : List String} {state : State} {scope : String}

theorem tracks_start : Tracks [] [] State.start where
  table := ⟨[], Table.Refines.start⟩
  errors := rfl
  warnings := rfl
  warned := by
    intro order
    simp [State.start, History.Doubts, History.doubtfulReads, History.collect, History.pasts,
      pastsFrom]

/-! ### Searches -/

theorem describe_name (order : Nat) (place : String) (declared : Declared) :
    (history.describe order (place, declared)).name = declared.name := rfl

theorem describe_scope (order : Nat) (place : String) (declared : Declared) :
    (history.describe order (place, declared)).scope = place := rfl

theorem describe_insertionOrder (order : Nat) (place : String) (declared : Declared) :
    (history.describe order (place, declared)).insertionOrder = order := rfl

/-- A symbol is a variable without a value if it was declared so and nothing is assigned to it. -/
theorem describe_valueless_iff {order : Nat} {place : String} {declared : Declared} :
    ((history.describe order (place, declared)).category = .variable ∧
      (history.describe order (place, declared)).isInitialized = false) ↔
    declared.isBare = true ∧ history.uses .assign place declared.name = false := by
  simp only [History.describe, Bool.or_eq_false_iff, Bool.not_eq_false']
  constructor
  · rintro ⟨_, bare, unassigned⟩
    exact ⟨bare, unassigned⟩
  · rintro ⟨bare, unassigned⟩
    exact ⟨Declared.category_of_isBare bare, bare, unassigned⟩

/-- The symbol of a name in a scope is its earliest declaration, marked by the uses so far. -/
theorem lookupIn_logOf (history : History) (made entered : List String) (place name : String) :
    (logOf history made entered).lookupIn place name =
      (history.declaration? place name).map fun declared =>
        history.describe (history.orderOf place name) (place, declared) := by
  rw [Log.lookupIn, logOf, history.find?_entries, Option.map_map]
  rfl

theorem isSome_lookupIn_logOf (history : History) (made entered : List String)
    (place name : String) :
    ((logOf history made entered).lookupIn place name).isSome =
      (history.declaration? place name).isSome := by
  rw [lookupIn_logOf, Option.isSome_map]

/-- Inside a function, a use is searched for in the function and then in the global scope. -/
theorem scopeOf?_logOf (history : History) (made : List String) (scope name : String) :
    (logOf history made [scope]).scopeOf? name = history.resolve? scope name := by
  have active : (logOf history made [scope]).active = [scope, globalScope] := rfl
  simp only [Log.scopeOf?, active, List.find?_cons, List.find?_nil, isSome_lookupIn_logOf,
    History.resolve?]
  cases (history.declaration? scope name).isSome with
  | true => rfl
  | false => cases (history.declaration? globalScope name).isSome <;> rfl

namespace Logs

theorem lookupIn {entered : List String} (logs : Logs history entered state)
    (place name : String) :
    state.table.lookupIn place name =
      (history.declaration? place name).map fun declared =>
        history.describe (history.orderOf place name) (place, declared) := by
  obtain ⟨made, refines⟩ := logs.table
  rw [refines.lookupIn, lookupIn_logOf]

theorem lookup_eq_none (logs : Logs history [scope] state) {name : String}
    (unresolved : history.resolve? scope name = none) : state.table.lookup name = none := by
  obtain ⟨made, refines⟩ := logs.table
  rw [← scopeOf?_logOf history made, Log.scopeOf?, List.find?_eq_none] at unresolved
  rw [refines.lookup, Log.lookup, List.findSome?_eq_none_iff]
  intro place member
  simpa using unresolved place member

/-- A resolved use finds the earliest declaration of the name in the scope it resolves to. -/
theorem lookup_eq_some (logs : Logs history [scope] state) {name found : String}
    (resolved : history.resolve? scope name = some found) :
    ∃ declared, history.declaration? found name = some declared ∧
      state.table.lookup name =
        some (history.describe (history.orderOf found name) (found, declared)) := by
  obtain ⟨made, refines⟩ := logs.table
  obtain ⟨declared, isDeclared⟩ :=
    Option.isSome_iff_exists.1 (History.declaration?_isSome_of_resolve? resolved)
  refine ⟨declared, isDeclared, ?_⟩
  have active : (logOf history made [scope]).active = [scope, globalScope] := rfl
  simp only [refines.lookup, Log.lookup, active, List.findSome?_cons, lookupIn_logOf]
  unfold History.resolve? at resolved
  split at resolved
  · cases resolved
    rw [isDeclared, Option.map_some]
  · rename_i notLocal
    rw [Option.not_isSome_iff_eq_none] at notLocal
    split at resolved
    · cases resolved
      rw [notLocal, isDeclared, Option.map_none, Option.map_some]
    · cases resolved

/-! ### One event -/

/-- A declaration logs a new name and reports an old one, in the current scope. -/
theorem declare {entered : List String} (logs : Logs history entered state)
    (here : entered.headD globalScope = scope) (declared : Declared) :
    Logs (history ++ [.declare scope declared]) entered (state.declare declared.symbol) := by
  obtain ⟨made, refines⟩ := logs.table
  have current : (logOf history made entered).current = scope := here
  have found := lookupIn_logOf history made entered scope declared.name
  unfold State.declare
  cases isDeclared : history.declaration? scope declared.name with
  | some first =>
      have refused : (logOf history made entered).insert declared.symbol =
          .error ⟨declared.name, scope, first.position, declared.position⟩ := by
        rw [isDeclared, Option.map_some] at found
        rw [Log.insert_eq_error_iff, current]
        exact ⟨_, found, rfl⟩
      rw [refines.insert_eq_error refused]
      refine ⟨⟨made, ?_⟩, ?_⟩
      · rw [logOf, History.entries_concat_redeclare isDeclared]
        exact refines
      · rw [History.violations_concat, ← logs.errors]
        simp [Event.violation?, isDeclared, State.report]
  | none =>
      rw [isDeclared, Option.map_none, ← current] at found
      obtain ⟨grown, accepted, refinesNext⟩ := refines.insert
        (Log.insert_eq_ok_iff.2 ⟨Log.lookupIn_eq_none_iff.1 found, rfl⟩)
      rw [accepted]
      refine ⟨⟨made, ?_⟩, ?_⟩
      · rw [logOf, History.entries_concat_declare isDeclared]
        rw [Log.stamp, current] at refinesNext
        exact refinesNext
      · rw [History.violations_concat, ← logs.errors]
        simp [Event.violation?, isDeclared]

/-- A use marks the symbol that it resolves to, and is reported if there is none. -/
theorem resolve (logs : Logs history [scope] state) (kind : UseKind) (ident : Ident) :
    Logs (history ++ [.use kind scope ident]) [scope] (state.resolve ident kind.mark) := by
  obtain ⟨made, refines⟩ := logs.table
  unfold State.resolve
  cases resolved : history.resolve? scope ident.name with
  | none =>
      rw [logs.lookup_eq_none resolved]
      refine ⟨⟨made, ?_⟩, ?_⟩
      · rw [logOf, History.entries_concat_unresolved resolved]
        exact refines
      · rw [History.resolve?_eq_none_iff] at resolved
        have current : state.table.current = scope := refines.current
        rw [History.violations_concat, ← logs.errors]
        simp [Event.violation?, resolved, State.undefined, State.report, current]
  | some found =>
      obtain ⟨declared, _, hit⟩ := logs.lookup_eq_some resolved
      rw [hit]
      refine ⟨⟨made, ?_⟩, ?_⟩
      · have refinesMarked := refines.modify kind.mark_insertionOrder ident.name
        rw [Log.modify, scopeOf?_logOf, resolved] at refinesMarked
        rw [logOf, History.entries_concat_resolved resolved]
        exact refinesMarked
      · have known : ¬(history.declaration? scope ident.name = none ∧
            history.declaration? globalScope ident.name = none) := by
          rw [← History.resolve?_eq_none_iff, resolved]
          exact Option.some_ne_none found
        rw [History.violations_concat, ← logs.errors]
        simp [Event.violation?, known]

end Logs

namespace Tracks

/-- An event that is no doubtful read adds nothing to the warnings. -/
theorem of_logs {entered : List String} {event : Event} {next : State}
    (tracks : Tracks history entered state) (logs : Logs (history ++ [event]) entered next)
    (certain : event.doubtful? history = none) (sameWarnings : next.warnings = state.warnings)
    (sameWarned : next.warned = state.warned) : Tracks (history ++ [event]) entered next := by
  refine ⟨logs, ?_, ?_⟩
  · rw [sameWarnings, tracks.warnings, History.doubtfulReads_concat, certain, Option.toList_none,
      List.append_nil]
  · intro order
    rw [sameWarned, tracks.warned, History.doubts_concat, certain]
    simp

/-- A doubtful read adds its warning, and the order of its symbol is remembered. -/
theorem of_doubtful {entered : List String} {event : Event} {next : State} {place name : String}
    {useSite : Position} (tracks : Tracks history entered state)
    (logs : Logs (history ++ [event]) entered next)
    (doubtful : event.doubtful? history = some (.uninitialized name place useSite))
    (moreWarnings : next.warnings = state.warnings ++ [.uninitialized name place useSite])
    (moreWarned : next.warned = history.orderOf place name :: state.warned) :
    Tracks (history ++ [event]) entered next := by
  refine ⟨logs, ?_, ?_⟩
  · rw [moreWarnings, tracks.warnings, History.doubtfulReads_concat, doubtful, Option.toList_some]
  · intro order
    rw [moreWarned, List.mem_cons, tracks.warned, History.doubts_concat, doubtful, Or.comm]
    apply or_congr_right
    constructor
    · rintro rfl
      exact ⟨place, name, useSite, rfl, rfl⟩
    · rintro ⟨_, _, _, same, isOrder⟩
      cases same
      exact isOrder.symm

theorem declare {entered : List String} (tracks : Tracks history entered state)
    (here : entered.headD globalScope = scope) (declared : Declared) :
    Tracks (history ++ [.declare scope declared]) entered (state.declare declared.symbol) := by
  refine tracks.of_logs (tracks.toLogs.declare here declared) rfl ?_ ?_ <;>
  · unfold State.declare
    split <;> rfl

theorem resolve (tracks : Tracks history [scope] state) (kind : UseKind) (ident : Ident)
    (certain : (Event.use kind scope ident).doubtful? history = none) :
    Tracks (history ++ [.use kind scope ident]) [scope] (state.resolve ident kind.mark) := by
  refine tracks.of_logs (tracks.toLogs.resolve kind ident) certain ?_ ?_ <;>
  · unfold State.resolve
    split <;> rfl

theorem callee (tracks : Tracks history [scope] state) (ident : Ident) :
    Tracks (history ++ [.use .call scope ident]) [scope] (state.callee ident) :=
  tracks.resolve _ ident rfl

theorem target (tracks : Tracks history [scope] state) (ident : Ident) :
    Tracks (history ++ [.use .assign scope ident]) [scope] (state.target ident) :=
  tracks.resolve _ ident rfl

/-- A read of a name that is not declared is reported and raises no doubt. -/
theorem read_unresolved (tracks : Tracks history [scope] state) (ident : Ident)
    (unresolved : history.resolve? scope ident.name = none) :
    Tracks (history ++ [.use .read scope ident]) [scope] (state.read ident) := by
  have sameAsResolve : state.read ident = state.resolve ident UseKind.read.mark := by
    rw [State.read, State.resolve, tracks.toLogs.lookup_eq_none unresolved]
  rw [sameAsResolve]
  apply tracks.resolve .read ident
  simp [Event.doubtful?, unresolved]

/-- A variable without a value has been read before if and only if it has been warned about. -/
theorem warned_iff_read (tracks : Tracks history [scope] state) {place name : String}
    {declared : Declared} (isDeclared : history.declaration? place name = some declared)
    (bare : declared.isBare = true) (unassigned : history.uses .assign place name = false) :
    history.orderOf place name ∈ state.warned ↔ history.uses .read place name = true := by
  rw [tracks.warned, History.doubts_orderOf_iff (Option.isSome_of_eq_some isDeclared)]
  constructor
  · rintro ⟨useSite, member⟩
    exact History.uses_of_mem_doubtfulReads member
  · intro read
    exact History.exists_doubtful_of_read isDeclared bare read unassigned

/-- A read marks the symbol it resolves to. The first read of a variable without a value is
reported, and no later one. -/
theorem read (tracks : Tracks history [scope] state) (ident : Ident) :
    Tracks (history ++ [.use .read scope ident]) [scope] (state.read ident) := by
  cases resolved : history.resolve? scope ident.name with
  | none => exact tracks.read_unresolved ident resolved
  | some found =>
      obtain ⟨declared, isDeclared, hit⟩ := tracks.toLogs.lookup_eq_some resolved
      have sameName : declared.name = ident.name := History.declaration?_name isDeclared
      have used := tracks.toLogs.resolve .read ident
      have usedCertainly := tracks.resolve .read ident
      rw [State.resolve, hit] at used usedCertainly
      have judged : (Event.use .read scope ident).doubtful? history =
          if declared.isBare ∧ history.uses .read found ident.name = false ∧
              history.uses .assign found ident.name = false then
            some (.uninitialized ident.name found ident.position)
          else none := by
        simp [Event.doubtful?, resolved, isDeclared]
      rw [State.read, hit]
      dsimp only
      by_cases valueless : declared.isBare = true ∧ history.uses .assign found ident.name = false
      · obtain ⟨bare, unassigned⟩ := valueless
        have warned := tracks.warned_iff_read isDeclared bare unassigned
        rw [if_pos (describe_valueless_iff.2 ⟨bare, sameName ▸ unassigned⟩)]
        unfold State.warnUninitialized
        rw [describe_name, describe_scope, describe_insertionOrder, sameName]
        dsimp only
        by_cases readBefore : history.uses .read found ident.name = true
        · rw [if_pos (warned.2 readBefore)]
          apply usedCertainly
          rw [judged, if_neg (by simp [readBefore])]
        · rw [if_neg (fun member => readBefore (warned.1 member))]
          rw [Bool.not_eq_true] at readBefore
          rw [if_pos ⟨bare, readBefore, unassigned⟩] at judged
          exact tracks.of_doubtful ⟨used.table, used.errors⟩ judged rfl rfl
      · rw [if_neg (fun holds => valueless (sameName ▸ describe_valueless_iff.1 holds))]
        apply usedCertainly
        rw [judged, if_neg]
        rintro ⟨bare, _, unassigned⟩
        exact valueless ⟨bare, unassigned⟩

/-! ### The walk -/

mutual

theorem walkExpr {history : History} {state : State} (tracks : Tracks history [scope] state) :
    ∀ expr : Expr, Tracks (history ++ expr.events scope) [scope] (state.walkExpr expr)
  | .binary op left right => by
      have both := (tracks.walkExpr left).walkExpr right
      rw [List.append_assoc] at both
      exact both
  | .ident name => tracks.read name
  | .int value => by
      rw [Expr.events, List.append_nil]
      exact tracks
  | .paren inner => tracks.walkExpr inner
  | .call callee args => by
      have called := (tracks.callee callee).walkExprs args
      rw [List.append_assoc] at called
      exact called

theorem walkExprs {history : History} {state : State} (tracks : Tracks history [scope] state) :
    ∀ exprs : List Expr,
      Tracks (history ++ Expr.eventsAll scope exprs) [scope] (state.walkExprs exprs)
  | [] => by
      rw [Expr.eventsAll, List.append_nil]
      exact tracks
  | expr :: rest => by
      have all := (tracks.walkExpr expr).walkExprs rest
      rw [List.append_assoc] at all
      exact all

end

theorem walkOption (tracks : Tracks history [scope] state) (value : Option Expr) :
    Tracks (history ++ value.toList.flatMap (Expr.events scope)) [scope]
      (state.walkOption value) := by
  cases value with
  | none =>
      simp only [Option.toList_none, List.flatMap_nil, List.append_nil]
      exact tracks
  | some expr =>
      simp only [Option.toList_some, List.flatMap_singleton]
      exact tracks.walkExpr expr

theorem walkDeclaration (tracks : Tracks history [scope] state) (declaration : Declaration) :
    Tracks (history ++ declaration.events scope) [scope] (state.walkDeclaration declaration) := by
  rw [Declaration.events, ← List.append_assoc]
  exact (tracks.walkOption declaration.init).declare rfl (.variable declaration)

theorem walkAssignment (tracks : Tracks history [scope] state) (assignment : Assignment) :
    Tracks (history ++ assignment.events scope) [scope] (state.walkAssignment assignment) := by
  rw [Assignment.events, ← List.append_assoc]
  exact (tracks.walkExpr assignment.value).target assignment.target

theorem walkInit (tracks : Tracks history [scope] state) (init : LoopInit) :
    Tracks (history ++ init.events scope) [scope] (state.walkInit init) := by
  cases init with
  | declare declaration => exact tracks.walkDeclaration declaration
  | assign assignment => exact tracks.walkAssignment assignment

mutual

theorem walkStmt {history : History} {state : State} (tracks : Tracks history [scope] state) :
    ∀ stmt : Stmt, Tracks (history ++ stmt.events scope) [scope] (state.walkStmt stmt)
  | .declare declaration => tracks.walkDeclaration declaration
  | .assign assignment => tracks.walkAssignment assignment
  | .branch cond thenBlock none => by
      rw [Stmt.events, ← List.append_assoc]
      exact (tracks.walkExpr cond).walkStmts thenBlock
  | .branch cond thenBlock (some elseBlock) => by
      rw [Stmt.events, ← List.append_assoc, ← List.append_assoc]
      exact ((tracks.walkExpr cond).walkStmts thenBlock).walkStmts elseBlock
  | .whileLoop cond body => by
      rw [Stmt.events, ← List.append_assoc]
      exact (tracks.walkExpr cond).walkStmts body
  | .forLoop init cond update body => by
      rw [Stmt.events, ← List.append_assoc, ← List.append_assoc, ← List.append_assoc]
      exact (((tracks.walkInit init).walkExpr cond).walkStmts body).walkAssignment update
  | .ret value => tracks.walkOption value
  | .call callee args => by
      have called := (tracks.callee callee).walkExprs args
      rw [List.append_assoc] at called
      exact called
  | .block stmts => tracks.walkStmts stmts

theorem walkStmts {history : History} {state : State} (tracks : Tracks history [scope] state) :
    ∀ stmts : List Stmt,
      Tracks (history ++ Stmt.eventsAll scope stmts) [scope] (state.walkStmts stmts)
  | [] => by
      rw [Stmt.eventsAll, List.append_nil]
      exact tracks
  | stmt :: rest => by
      have all := (tracks.walkStmt stmt).walkStmts rest
      rw [List.append_assoc] at all
      exact all

end

theorem walkParameters (tracks : Tracks history [scope] state) (parameters : List Parameter) :
    Tracks (history ++ parameters.map fun formal => .declare scope (.parameter formal)) [scope]
      (parameters.foldl State.walkParameter state) := by
  induction parameters generalizing history state with
  | nil =>
      rw [List.map_nil, List.append_nil]
      exact tracks
  | cons parameter rest inductionHypothesis =>
      have all := inductionHypothesis (tracks.declare rfl (.parameter parameter))
      rw [List.append_assoc] at all
      exact all

theorem walkFunction (tracks : Tracks history [] state) (function : FunctionDecl) :
    Tracks (history ++ function.events) [] (state.walkFunction function) := by
  have declared := tracks.declare rfl (.function function)
  have inside : Tracks (history ++ [.declare globalScope (.function function)])
      [function.name.name]
      ((state.declare (Declared.function function).symbol).enter function.name.name) :=
    { declared with
      table := by
        obtain ⟨made, refines⟩ := declared.table
        exact ⟨_, refines.enter function.name.name⟩ }
  have body := (inside.walkParameters function.params).walkStmts function.body
  have all : history ++ function.events =
      history ++ [.declare globalScope (.function function)] ++
        (function.params.map fun formal => .declare function.name.name (.parameter formal)) ++
        Stmt.eventsAll function.name.name function.body := by
    simp [FunctionDecl.events]
  rw [all]
  exact
    { body with
      table := by
        obtain ⟨made, refines⟩ := body.table
        exact ⟨made, refines.leave⟩ }

theorem walkFunctions (tracks : Tracks history [] state) (functions : List FunctionDecl) :
    Tracks (history ++ functions.flatMap FunctionDecl.events) []
      (functions.foldl State.walkFunction state) := by
  induction functions generalizing history state with
  | nil =>
      rw [List.flatMap_nil, List.append_nil]
      exact tracks
  | cons function rest inductionHypothesis =>
      have after := inductionHypothesis (tracks.walkFunction function)
      rw [List.append_assoc] at after
      exact after

end Tracks

/-- After a whole program the analyzer has tracked the events of the program. -/
theorem tracks_program (program : Program) :
    Tracks program.events [] (program.functions.foldl State.walkFunction .start) :=
  tracks_start.walkFunctions program.functions

end Analysis

end MiddleEnd
