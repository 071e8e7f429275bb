import MiddleEnd.Optimizer.DeadCode
import MiddleEnd.Optimizer.Folding
import MiddleEnd.Optimizer.Propagation
import MiddleEnd.Optimizer.SelfAssignment

/-!
Contract: the optimizer, four passes run once each in a fixed order.

Owns: the passes as values, their names, their order, and the record of what each did.
Does not own: the passes themselves.
-/

namespace MiddleEnd

/-- An optimization pass. -/
inductive Pass where
  | deadCode
  | constantPropagation
  | constantFolding
  | redundantAssignment
deriving DecidableEq, Repr, Inhabited

namespace Pass

/-- The passes in the order in which the optimizer runs them. -/
def pipeline : List Pass :=
  [deadCode, constantPropagation, constantFolding, redundantAssignment]

/-- The name of a pass. -/
def name : Pass → String
  | deadCode => "dead_code"
  | constantPropagation => "constant_propagation"
  | constantFolding => "constant_folding"
  | redundantAssignment => "redundant_assignment"

/-- The pass of a name. -/
def ofName? (text : String) : Option Pass := pipeline.find? fun pass => pass.name == text

/-- Run a pass on code. Only the elimination of dead code looks at the entry function. -/
def run (pass : Pass) (entry : String) (code : Code) : Code :=
  match pass with
  | deadCode => code.eliminateDead entry
  | constantPropagation => code.propagate
  | constantFolding => code.fold
  | redundantAssignment => code.dropSelfAssignments

/-- The lengths of the code before and after a pass. -/
structure Stats where
  pass : Pass
  before : Nat
  after : Nat
deriving DecidableEq, Repr, Inhabited

/-- How many instructions were removed, none if the code grew. -/
def Stats.removed (stats : Stats) : Nat := stats.before - stats.after

end Pass

namespace Optimizer

/-- Code, and what each pass that made it did. -/
structure Result where
  code : Code
  stats : List Pass.Stats
deriving DecidableEq, Repr, Inhabited

/-- Run passes one after another. -/
def runAll (entry : String) (code : Code) : List Pass → Result
  | [] => ⟨code, []⟩
  | pass :: rest =>
      let next := pass.run entry code
      let final := runAll entry next rest
      ⟨final.code, ⟨pass, code.length, next.length⟩ :: final.stats⟩

/-- Optimize code whose entry function has a given name. -/
def optimize (entry : String) (code : Code) : Result := runAll entry code Pass.pipeline

end Optimizer

end MiddleEnd
