import MiddleEnd.Symbols.Symbol

/-!
Contract: the symbol table, an arena of named scopes with a stack of the active ones.

A scope is made when its name is first entered. It stays in the arena for good, and its index there
is its id, which a map keeps for each name. The active scopes are a stack of ids with the global
scope at the bottom, where it cannot be left. Leaving a scope only pops the stack, so the table
still answers for locals of functions that are done.

A scope holds its symbols under the names they were declared with, oldest first. That name is the
key of the symbol for good: a later change of the symbol's own name does not move it. Across scopes
the symbols are put in order by the numbers that a counter gave them. Ids and numbers have no bound:
a table that would exhaust the words of a machine is not considered.

Owns: scopes, insertion, the searches by name, and changes to a found symbol.
Does not own: the order in which a program declares and uses names (`MiddleEnd.Analysis`).
-/

namespace MiddleEnd

/-- The name of the outermost scope. -/
def globalScope : String := "global"

/-- A named scope: its symbols under their keys, oldest first. -/
structure Scope where
  name : String
  symbols : List (String × Symbol) := []
deriving DecidableEq, Repr, Inhabited

namespace Scope

/-- The symbol under a key. -/
def get? (scope : Scope) (key : String) : Option Symbol := scope.symbols.lookup key

/-- The symbols, oldest first. -/
def values (scope : Scope) : List Symbol := scope.symbols.map Prod.snd

/-- Put a symbol under a key, behind all others, unless the key has one already. -/
def add (scope : Scope) (key : String) (symbol : Symbol) : Scope :=
  match scope.get? key with
  | some _ => scope
  | none => { scope with symbols := scope.symbols ++ [(key, symbol)] }

/-- Change the symbol under a key where it stands. -/
def modify (scope : Scope) (key : String) (change : Symbol → Symbol) : Scope :=
  { scope with
    symbols := scope.symbols.map fun (other, symbol) =>
      (other, if other == key then change symbol else symbol) }

end Scope

/-- A symbol table. -/
structure Table where
  /-- Every scope that was ever entered. The id of a scope is its index. -/
  arena : List Scope
  /-- The id of each name that was ever entered. -/
  ids : List (String × Nat)
  /-- The ids of the active scopes, innermost first. -/
  stack : List Nat
  /-- The id of the global scope. -/
  global : Nat
  /-- The number that the next declaration gets. -/
  nextOrder : Nat
deriving DecidableEq, Repr, Inhabited

/-- A second declaration of a name in one scope. -/
structure Redeclaration where
  name : String
  scope : String
  first : Position
  second : Position
deriving DecidableEq, Repr, Inhabited

namespace Table

/-- The table that holds only the global scope. -/
def start : Table :=
  { arena := [{ name := globalScope }]
    ids := [(globalScope, 0)]
    stack := [0]
    global := 0
    nextOrder := 0 }

/-! ### Views -/

/-- The scope of an id. -/
def scopeAt (table : Table) (id : Nat) : Scope := table.arena.getD id default

/-- The id of the innermost active scope. -/
def currentId (table : Table) : Nat := table.stack.headD table.global

/-- All scopes, in the order in which they were made. -/
def scopes (table : Table) : List String := table.arena.map Scope.name

/-- The active scopes, innermost first. -/
def active (table : Table) : List String := table.stack.map fun id => (table.scopeAt id).name

/-- The innermost active scope. -/
def current (table : Table) : String := (table.scopeAt table.currentId).name

/-- All symbols of all scopes, in the order in which they were declared. -/
def symbols (table : Table) : List Symbol :=
  (table.arena.flatMap Scope.values).mergeSort fun left right =>
    left.insertionOrder ≤ right.insertionOrder

/-- The number of declarations. -/
def size (table : Table) : Nat := table.nextOrder

/-! ### Searches -/

/-- The symbol of a name in one scope. -/
def lookupIn (table : Table) (scope name : String) : Option Symbol :=
  (table.ids.lookup scope).bind fun id => (table.scopeAt id).get? name

/-- The symbol of a name in the innermost active scope that has one. -/
def lookup (table : Table) (name : String) : Option Symbol :=
  table.stack.findSome? fun id => (table.scopeAt id).get? name

/-- The symbol of a name as it is seen from a scope: the scopes inside the innermost active
occurrence of that scope are passed over. The global scope is asked last, even if the scope is not
active at all. -/
def lookupFrom (table : Table) (scope name : String) : Option Symbol :=
  let outwards := table.stack.dropWhile fun id => (table.scopeAt id).name != scope
  (outwards.findSome? fun id => (table.scopeAt id).get? name).or
    ((table.scopeAt table.global).get? name)

/-- The id of the innermost active scope that has a name. -/
def idOf? (table : Table) (name : String) : Option Nat :=
  table.stack.find? fun id => ((table.scopeAt id).get? name).isSome

/-! ### Operations -/

/-- Make a scope current, making it first if it is new. A name that was entered before means the
same scope again. -/
def enter (table : Table) (scope : String) : Table :=
  match table.ids.lookup scope with
  | some id => { table with stack := id :: table.stack }
  | none =>
      let id := table.arena.length
      { table with
        arena := table.arena ++ [{ name := scope }]
        ids := (scope, id) :: table.ids
        stack := id :: table.stack }

/-- Leave the innermost scope, or nothing if only the global scope is active. -/
def leave? (table : Table) : Option Table :=
  if 1 < table.stack.length then some { table with stack := table.stack.tail } else none

/-- Leave the innermost scope; its symbols stay. The global scope stays active. -/
def leave (table : Table) : Table := table.leave?.getD table

/-- What is said when the global scope would be left. -/
def leaveGlobalMessage : String := "exit_scope called with only the global scope active"

/-- The symbol as the next insertion stores it. -/
def stamp (table : Table) (symbol : Symbol) : Symbol :=
  { symbol with scope := table.current, insertionOrder := table.nextOrder }

/-- Declare a symbol in the current scope. A name that the scope already has is refused, and the
first declaration stands. -/
def insert (table : Table) (symbol : Symbol) : Except Redeclaration Table :=
  match (table.scopeAt table.currentId).get? symbol.name with
  | some existing =>
      .error
        { name := symbol.name
          scope := table.current
          first := existing.declaredAt
          second := symbol.declaredAt }
  | none =>
      .ok
        { table with
          arena := table.arena.modify table.currentId (·.add symbol.name (table.stamp symbol))
          nextOrder := table.nextOrder + 1 }

/-- Change the symbol that `lookup` finds for a name; a name that is not found changes nothing. -/
def modify (table : Table) (name : String) (change : Symbol → Symbol) : Table :=
  match table.idOf? name with
  | none => table
  | some id => { table with arena := table.arena.modify id (·.modify name change) }

end Table

end MiddleEnd
