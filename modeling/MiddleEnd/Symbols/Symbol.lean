import MiddleEnd.Position

/-!
Contract: what is known about a declared name.

Owns: the symbol record, its categories, and the changes that its uses make to it.
Does not own: the scopes that hold symbols (`MiddleEnd.Symbols.Table`).
-/

namespace MiddleEnd

/-- What kind of thing a symbol names. -/
inductive Category where
  | variable
  | parameter
  | function
deriving DecidableEq, Repr, Inhabited

/-- The category as one word. -/
def Category.render : Category → String
  | .variable => "variable"
  | .parameter => "parameter"
  | .function => "function"

/-- A declared name. The scope and the insertion order are set when the symbol enters a table. -/
structure Symbol where
  name : String
  declaredType : String
  category : Category
  declaredAt : Position
  scope : String := ""
  isConstant : Bool := false
  isInitialized : Bool := false
  isUsed : Bool := false
  parameters : List String := []
  insertionOrder : Nat := 0
deriving DecidableEq, Repr, Inhabited

namespace Symbol

/-- The symbol after a read or a call. -/
def markUsed (symbol : Symbol) : Symbol := { symbol with isUsed := true }

/-- The symbol after an assignment. -/
def markInitialized (symbol : Symbol) : Symbol := { symbol with isInitialized := true }

/-- A change to the parts of a symbol that may change while it is in a table. Absent parts stay as
they are. -/
structure Change where
  used : Option Bool := none
  initialized : Option Bool := none
  name : Option String := none
deriving DecidableEq, Repr, Inhabited

/-- The symbol with a change made to it. -/
def change (symbol : Symbol) (change : Change) : Symbol :=
  { symbol with
    isUsed := change.used.getD symbol.isUsed
    isInitialized := change.initialized.getD symbol.isInitialized
    name := change.name.getD symbol.name }

end Symbol

end MiddleEnd
