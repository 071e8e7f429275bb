import MiddleEnd.Analysis.Analyzer
import MiddleEnd.Code.Listing
import MiddleEnd.Lowering
import MiddleEnd.Optimizer.Pipeline
import MiddleEnd.Options.Basic
import MiddleEnd.Symbols.Report

/-!
Contract: from a program to its code, or to the reasons why it has none.

A program is analyzed, lowered and, if the options say so, optimized. Errors of the analysis end
the compilation before any code is made.

Owns: the order of the stages, the outcome, and the counts that sum it up.
Does not own: the stages.
-/

namespace MiddleEnd

/-- The counts that sum up a compilation. -/
structure CompileStats where
  rawInstructions : Nat
  optimizedInstructions : Nat
  symbols : Nat
  warnings : Nat
deriving DecidableEq, Repr, Inhabited

namespace CompileStats

/-- A number and a noun, in the plural unless the number is one. -/
def count (number : Nat) (noun : String) : String :=
  toString number ++ " " ++ noun ++ (if number = 1 then "" else "s")

/-- The counts in one line. -/
def render (stats : CompileStats) : String :=
  count stats.rawInstructions "instruction" ++
    " (" ++ toString stats.optimizedInstructions ++ " after optimization), " ++
    count stats.symbols "symbol" ++ ", " ++ count stats.warnings "warning"

end CompileStats

/-- A compiled program. -/
structure Compilation where
  /-- The code as it was lowered. -/
  raw : Code
  /-- The code after the optimizer; the raw code if the optimizer is off. -/
  optimized : Code
  /-- The symbols of the program. -/
  table : Table
  warnings : List Warning
  /-- What each pass did; empty if the optimizer is off. -/
  passes : List Pass.Stats
deriving Repr, Inhabited

/-- The counts of a compilation. -/
def Compilation.stats (compilation : Compilation) : CompileStats :=
  { rawInstructions := compilation.raw.length
    optimizedInstructions := compilation.optimized.length
    symbols := compilation.table.size
    warnings := compilation.warnings.length }

/-- A program that was not compiled, with all that the analysis reported. -/
structure Rejection where
  errors : List SemanticError
  warnings : List Warning
deriving DecidableEq, Repr, Inhabited

/-- The text of a rejection, which only counts the errors. -/
def Rejection.message (rejection : Rejection) : String :=
  "semantic analysis failed with " ++ toString rejection.errors.length ++ " error(s)"

/-- Compile a program. -/
def Program.compile (program : Program) (options : Options) : Except Rejection Compilation :=
  let analysis := program.analyze
  if analysis.hasErrors then
    .error ⟨analysis.errors, analysis.warnings⟩
  else
    let raw := program.lower analysis.table
    let final : Optimizer.Result :=
      if options.optimize then Optimizer.optimize options.entryFunction raw else ⟨raw, []⟩
    .ok
      { raw
        optimized := final.code
        table := analysis.table
        warnings := analysis.warnings
        passes := final.stats }

end MiddleEnd
