import MiddleEnd.Symbols.Table

/-!
Contract: the symbol report, a table of fixed columns with one row per symbol.

A text that is longer than its column pushes the rest of its row to the right. Rows carry no blanks
at their end.

Owns: the layout of the report.
Does not own: the order of the symbols, which is that of the table.
-/

namespace MiddleEnd

namespace Report

/-- The text filled up with blanks to a width, counted in characters. -/
def pad (width : Nat) (text : String) : String :=
  text ++ String.ofList (List.replicate (width - text.length) ' ')

/-- The text without the blanks at its end. -/
def dropBlanks (text : String) : String :=
  String.ofList (text.toList.reverse.dropWhile (· == ' ')).reverse

/-- The texts of one row. -/
structure Row where
  name : String
  type : String
  category : String
  line : String
  column : String
  scope : String
  params : String
  flags : String
deriving DecidableEq, Repr, Inhabited

/-- The row as a line of text. -/
def Row.render (row : Row) : String :=
  let padded := [pad 12 row.name, pad 10 row.type, pad 9 row.category, pad 5 row.line,
    pad 5 row.column, pad 11 row.scope, pad 15 row.params, row.flags]
  dropBlanks (" ".intercalate padded) ++ "\n"

/-- The heading of the columns. -/
def heading : Row :=
  { name := "NAME", type := "TYPE", category := "CATEGORY", line := "LINE", column := "COL"
    scope := "SCOPE", params := "PARAMS", flags := "FLAGS" }

/-- The types of a function's parameters; other symbols have a dash. -/
def params (symbol : Symbol) : String :=
  match symbol.category with
  | .function => "[" ++ ", ".intercalate symbol.parameters ++ "]"
  | _ => "-"

/-- The remarks on a symbol, divided by blanks. -/
def flags (symbol : Symbol) : String :=
  " ".intercalate <|
    (if symbol.isConstant then ["const"] else []) ++
    (if symbol.isInitialized then [] else ["uninitialized"]) ++
    (if symbol.isUsed then [] else ["unused"])

/-- The row of a symbol. -/
def row (symbol : Symbol) : Row :=
  { name := symbol.name
    type := symbol.declaredType
    category := symbol.category.render
    line := toString symbol.declaredAt.line.toNat
    column := toString symbol.declaredAt.column.toNat
    scope := symbol.scope
    params := params symbol
    flags := flags symbol }

/-- The report on a table: the heading, a rule of dashes, and a row for each symbol. -/
def render (table : Table) : String :=
  heading.render ++ String.ofList (List.replicate 78 '-') ++ "\n" ++
    String.join (table.symbols.map fun symbol => (row symbol).render)

end Report

end MiddleEnd
