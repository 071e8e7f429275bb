import MiddleEnd.Json.Tree
import MiddleEnd.Symbols.Symbol

/-!
Contract: the JSON form of symbols.

An insertion order is read as a number of 64 bits: a larger one is refused.

Owns: the JSON form of categories and symbols.
Does not own: the JSON form of positions.
-/

namespace MiddleEnd

def Category.key : Category → String
  | .variable => "Variable"
  | .parameter => "Parameter"
  | .function => "Function"

def Category.ofKey? : String → Option Category
  | "Variable" => some .variable
  | "Parameter" => some .parameter
  | "Function" => some .function
  | _ => none

def Category.toJson (category : Category) : Json := .str category.key

def Category.ofJson? (json : Json) : Option Category := json.bareVariant?.bind Category.ofKey?

def Symbol.fields : List String :=
  ["name", "declared_type", "category", "declared_at", "scope", "is_constant", "is_initialized",
    "is_used", "parameters", "insertion_order"]

def Symbol.toJson (symbol : Symbol) : Json :=
  .obj [("name", .str symbol.name), ("declared_type", .str symbol.declaredType),
    ("category", symbol.category.toJson), ("declared_at", symbol.declaredAt.toJson),
    ("scope", .str symbol.scope), ("is_constant", .bool symbol.isConstant),
    ("is_initialized", .bool symbol.isInitialized), ("is_used", .bool symbol.isUsed),
    ("parameters", .arr (symbol.parameters.map .str)),
    ("insertion_order", .int symbol.insertionOrder)]

def Symbol.ofJson? (json : Json) : Option Symbol := do
  let field (name : String) := json.field? fields name
  return {
    name := ← (← field "name").val.string?
    declaredType := ← (← field "declared_type").val.string?
    category := ← Category.ofJson? (← field "category").val
    declaredAt := ← Position.ofJson? (← field "declared_at").val
    scope := ← (← field "scope").val.string?
    isConstant := ← (← field "is_constant").val.bool?
    isInitialized := ← (← field "is_initialized").val.bool?
    isUsed := ← (← field "is_used").val.bool?
    parameters := ← (← field "parameters").val.strings?
    insertionOrder := (← (← field "insertion_order").val.uint64?).toNat }

end MiddleEnd
