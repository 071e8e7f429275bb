import MiddleEnd.Analysis.Analyzer

/-!
Contract: what a program says about its names, as a history.

A program is flattened into the events of its walk: declarations and uses, in source order. From
the events before it alone, an event is a violation or not, a use stands for a declared symbol or
for none, and a read is doubtful or not. Nothing here keeps a table, a stack or a set of symbols
that have been reported.

Owns: the events of a program, the symbols a history declares, and what it has to say about them.
Does not own: the analyzer, and that it computes this (`MiddleEnd.Proofs.Analysis.Tracking`).
-/

namespace MiddleEnd

/-! ### Events -/

/-- What a use of a name does with it. -/
inductive UseKind where
  | read
  | assign
  | call
deriving DecidableEq, Repr

/-- A declaration as the program writes it. -/
inductive Declared where
  | variable (declaration : Declaration)
  | parameter (formal : Parameter)
  | function (decl : FunctionDecl)
deriving Repr

namespace Declared

/-- Whether a variable is declared without an initial value. -/
def isBare : Declared → Bool
  | .variable declaration => declaration.init.isNone
  | .parameter _ => false
  | .function _ => false

/-- The declared symbol, before any use of it. -/
def symbol : Declared → Symbol
  | .variable declaration =>
      { name := declaration.name.name
        declaredType := declaration.type
        category := .variable
        declaredAt := declaration.name.position
        isConstant := declaration.constant
        isInitialized := declaration.init.isSome }
  | .parameter formal =>
      { name := formal.name.name
        declaredType := formal.type
        category := .parameter
        declaredAt := formal.name.position
        isInitialized := true }
  | .function decl =>
      { name := decl.name.name
        declaredType := decl.returnType
        category := .function
        declaredAt := decl.name.position
        isInitialized := true
        parameters := decl.params.map Parameter.type }

/-- The declared name. -/
def name (declared : Declared) : String := declared.symbol.name

/-- The position of the declaration. -/
def position (declared : Declared) : Position := declared.symbol.declaredAt

theorem symbol_isInitialized (declared : Declared) :
    declared.symbol.isInitialized = !declared.isBare := by
  cases declared <;> simp [symbol, isBare]

theorem symbol_isUsed (declared : Declared) : declared.symbol.isUsed = false := by
  cases declared <;> rfl

theorem category_of_isBare {declared : Declared} (bare : declared.isBare = true) :
    declared.symbol.category = .variable := by
  cases declared with
  | «variable» _ => rfl
  | parameter _ => cases bare
  | function _ => cases bare

end Declared

/-- What happens to a name at one point of a program. -/
inductive Event where
  | declare (scope : String) (declared : Declared)
  | use (kind : UseKind) (scope : String) (ident : Ident)
deriving Repr

/-- Events, oldest first. -/
abbrev History := List Event

mutual

/-- The events of an expression: a callee comes before its arguments. -/
def Expr.events (scope : String) : Expr → History
  | .binary _ left right => left.events scope ++ right.events scope
  | .ident name => [.use .read scope name]
  | .int _ => []
  | .paren inner => inner.events scope
  | .call callee args => .use .call scope callee :: Expr.eventsAll scope args

/-- The events of expressions from left to right. -/
def Expr.eventsAll (scope : String) : List Expr → History
  | [] => []
  | expr :: rest => expr.events scope ++ Expr.eventsAll scope rest

end

/-- The events of a declaration: those of its initial value, then its own. -/
def Declaration.events (scope : String) (declaration : Declaration) : History :=
  (declaration.init.toList.flatMap (Expr.events scope)) ++ [.declare scope (.variable declaration)]

/-- The events of an assignment: those of its value, then the use of its target. -/
def Assignment.events (scope : String) (assignment : Assignment) : History :=
  assignment.value.events scope ++ [.use .assign scope assignment.target]

/-- The events of the start of a loop. -/
def LoopInit.events (scope : String) : LoopInit → History
  | .declare declaration => declaration.events scope
  | .assign assignment => assignment.events scope

mutual

/-- The events of a statement: the update of a loop comes after its body. -/
def Stmt.events (scope : String) : Stmt → History
  | .declare declaration => declaration.events scope
  | .assign assignment => assignment.events scope
  | .branch cond thenBlock none => cond.events scope ++ Stmt.eventsAll scope thenBlock
  | .branch cond thenBlock (some elseBlock) =>
      cond.events scope ++ Stmt.eventsAll scope thenBlock ++ Stmt.eventsAll scope elseBlock
  | .whileLoop cond body => cond.events scope ++ Stmt.eventsAll scope body
  | .forLoop init cond update body =>
      init.events scope ++ cond.events scope ++ Stmt.eventsAll scope body ++ update.events scope
  | .ret value => value.toList.flatMap (Expr.events scope)
  | .call callee args => .use .call scope callee :: Expr.eventsAll scope args
  | .block stmts => Stmt.eventsAll scope stmts

/-- The events of statements in order. -/
def Stmt.eventsAll (scope : String) : List Stmt → History
  | [] => []
  | stmt :: rest => stmt.events scope ++ Stmt.eventsAll scope rest

end

/-- The events of a function: it is declared in the global scope, and all else in its own. -/
def FunctionDecl.events (function : FunctionDecl) : History :=
  .declare globalScope (.function function) ::
    (function.params.map (fun parameter => .declare function.name.name (.parameter parameter)) ++
      Stmt.eventsAll function.name.name function.body)

/-- The events of a program. -/
def Program.events (program : Program) : History := program.functions.flatMap FunctionDecl.events

/-! ### Every event with its past -/

/-- The elements of a list, each with all that came before it. -/
def pastsFrom {Item : Type} (past : List Item) : List Item → List (List Item × Item)
  | [] => []
  | item :: rest => (past, item) :: pastsFrom (past ++ [item]) rest

/-- The events of a history, each with the events before it. -/
def History.pasts (history : History) : List (History × Event) := pastsFrom [] history

theorem pastsFrom_concat {Item : Type} (past items : List Item) (item : Item) :
    pastsFrom past (items ++ [item]) = pastsFrom past items ++ [(past ++ items, item)] := by
  induction items generalizing past with
  | nil => simp [pastsFrom]
  | cons head tail inductionHypothesis =>
      simp only [List.cons_append, pastsFrom]
      rw [inductionHypothesis]
      simp

theorem History.pasts_concat (history : History) (event : Event) :
    History.pasts (history ++ [event]) = history.pasts ++ [(history, event)] := by
  unfold History.pasts
  rw [pastsFrom_concat]
  rfl

/-! ### Declarations and what uses stand for -/

/-- What an event declares, if it declares the given name in the given scope. -/
def Event.declares? (scope name : String) : Event → Option Declared
  | .declare place declared => if place = scope ∧ declared.name = name then some declared else none
  | .use _ _ _ => none

namespace History

/-- The earliest declaration of a name in a scope. -/
def declaration? (history : History) (scope name : String) : Option Declared :=
  history.findSome? (Event.declares? scope name)

/-- The scope in which a use finds its symbol: its own, or else the global one. -/
def resolve? (history : History) (scope name : String) : Option String :=
  if (history.declaration? scope name).isSome then some scope
  else if (history.declaration? globalScope name).isSome then some globalScope
  else none

theorem declaration?_concat (history : History) (event : Event) (scope name : String) :
    declaration? (history ++ [event]) scope name =
      (history.declaration? scope name).or (event.declares? scope name) := by
  simp [declaration?, List.findSome?_append]

/-- A name that was declared before keeps its earliest declaration. -/
theorem declaration?_of_concat {history : History} {event : Event} {scope name : String}
    {declared : Declared} (declaredBefore : (history.declaration? scope name).isSome)
    (isDeclared : declaration? (history ++ [event]) scope name = some declared) :
    history.declaration? scope name = some declared := by
  rw [declaration?_concat, Option.or_of_isSome declaredBefore] at isDeclared
  exact isDeclared

theorem declaration?_name {history : History} {scope name : String} {declared : Declared}
    (isDeclared : history.declaration? scope name = some declared) : declared.name = name := by
  obtain ⟨event, _, here⟩ := List.exists_of_findSome?_eq_some isDeclared
  cases event with
  | declare place found =>
      simp only [Event.declares?] at here
      split at here
      · rename_i same
        cases here
        exact same.2
      · cases here
  | use _ _ _ => cases here

theorem resolve?_eq_none_iff {history : History} {scope name : String} :
    history.resolve? scope name = none ↔
      history.declaration? scope name = none ∧ history.declaration? globalScope name = none := by
  unfold resolve?
  cases history.declaration? scope name <;> cases history.declaration? globalScope name <;> simp

/-- A use only ever finds a symbol in a scope that has declared the name. -/
theorem declaration?_isSome_of_resolve? {history : History} {scope name found : String}
    (resolved : history.resolve? scope name = some found) :
    (history.declaration? found name).isSome := by
  unfold resolve? at resolved
  split at resolved
  · cases resolved
    assumption
  · split at resolved
    · cases resolved
      assumption
    · cases resolved

end History

end MiddleEnd
