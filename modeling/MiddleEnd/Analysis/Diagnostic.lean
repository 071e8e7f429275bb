import MiddleEnd.Symbols.Table

/-!
Contract: what the analysis of a program reports.

Errors stop a compilation, warnings do not. Each carries the names and positions of its cause; the
wording is derived from them in one place.

Owns: the causes of errors and warnings, and their texts.
Does not own: when a cause arises (`MiddleEnd.Analysis.Analyzer`).
-/

namespace MiddleEnd

/-- A scoping violation. -/
inductive SemanticError where
  | redeclaration (clash : Redeclaration)
  | undefinedReference (name scope : String) (useSite : Position)
deriving DecidableEq, Repr, Inhabited

namespace SemanticError

/-- The name that the error is about. -/
def name : SemanticError → String
  | redeclaration clash => clash.name
  | undefinedReference name _ _ => name

/-- The scope in which the error arose. -/
def scope : SemanticError → String
  | redeclaration clash => clash.scope
  | undefinedReference _ scope _ => scope

/-- Where the program goes wrong: the second declaration, or the use. -/
def position : SemanticError → Position
  | redeclaration clash => clash.second
  | undefinedReference _ _ useSite => useSite

/-- The earlier declaration that a redeclaration clashes with. -/
def first? : SemanticError → Option Position
  | redeclaration clash => some clash.first
  | undefinedReference _ _ _ => none

/-- The text of the error. -/
def message : SemanticError → String
  | redeclaration clash =>
      clash.second.render ++ ": '" ++ clash.name ++ "' is already declared in scope '" ++
        clash.scope ++ "' (first declared at " ++ clash.first.render ++ ")"
  | undefinedReference name scope useSite =>
      useSite.render ++ ": '" ++ name ++ "' is not declared (in scope '" ++ scope ++ "')"

end SemanticError

/-- A doubtful declaration or use. -/
inductive Warning where
  | unused (name scope : String) (declaredAt : Position)
  | uninitialized (name scope : String) (useSite : Position)
deriving DecidableEq, Repr, Inhabited

namespace Warning

/-- The name that the warning is about. -/
def name : Warning → String
  | unused name _ _ => name
  | uninitialized name _ _ => name

/-- The scope that holds the name. -/
def scope : Warning → String
  | unused _ scope _ => scope
  | uninitialized _ scope _ => scope

/-- The declaration of an unused name, or the doubtful use. -/
def position : Warning → Position
  | unused _ _ declaredAt => declaredAt
  | uninitialized _ _ useSite => useSite

/-- The text of the warning. -/
def message : Warning → String
  | unused name scope declaredAt =>
      declaredAt.render ++ ": '" ++ name ++ "' is declared but never used (in scope '" ++ scope ++
        "')"
  | uninitialized name scope useSite =>
      useSite.render ++ ": '" ++ name ++ "' is read before it is initialized (in scope '" ++
        scope ++ "')"

end Warning

end MiddleEnd
