import MiddleEnd.Proofs.Compilation.Acceptance
import MiddleEnd.Proofs.Lowering.Wiring
import MiddleEnd.Proofs.Optimizer.WellFormed
import MiddleEnd.Tree.Shorthand

/-!
Contract: compiled code is closed and wired.

Lowered code is well formed since the functions of an accepted program have different names, and
every pass keeps it so, whatever the entry function.

Owns: well-formedness of what is compiled.
Does not own: well-formedness itself (`MiddleEnd.Proofs.Code.WellFormed`).
-/

namespace MiddleEnd

/-- The code of a compiled program is well formed: labels are defined once where they are jumped to
and never twice, and a temporary is written once, read once, and read right after it was written.
This holds with and without the optimizer, and for every entry function. -/
theorem compile_wellFormed (program : Program) (options : Options) (compilation : Compilation)
    (accepted : program.compile options = .ok compilation)
    (fewTemps : (Lowering.lowerFunctions program.analyze.table .start
      program.functions).names.temps < 2 ^ 32)
    (fewLabels : (Lowering.lowerFunctions program.analyze.table .start
      program.functions).names.labels < 2 ^ 32) :
    compilation.optimized.WellFormed := by
  obtain ⟨clean, optimized⟩ := Program.compile_inversion accepted
  have lowered : (program.lower program.analyze.table).WellFormed :=
    Lowering.wellFormed_lowerFunctions (Program.nodup_functionNames clean) (Nat.le_of_lt fewTemps)
      (Nat.le_of_lt fewLabels)
  rw [optimized]
  split
  · exact Optimizer.wellFormed_runAll options.entryFunction Pass.pipeline lowered
  · exact lowered

open Shorthand in
/-- A loop with a call in its condition, a folded operation and code after a return. -/
theorem compile_wellFormed_loop :
    let poll := function "poll" ["n"] [ret (some (binary .sub (var "n") (int 1)))]
    let main := function "main" ["n"]
      [whileLoop (binary .lt (call "poll" [var "n"]) (var "n"))
          [assign "n" (binary .mul (int 6) (int 7)), ret none, callStmt "poll" [var "n"]],
        assign "n" (var "n")]
    let sample : Program := ⟨[poll, main]⟩
    let names := (Lowering.lowerFunctions sample.analyze.table .start sample.functions).names
    names.temps < 2 ^ 32 ∧ names.labels < 2 ^ 32 ∧
      ∃ compilation, sample.compile {} = .ok compilation ∧
        compilation.optimized =
          [.label (.function "poll"),
            .binary ⟨0⟩ .sub (.slot (.var "n")) (.const 1),
            .assign .ret (.slot (.temp ⟨0⟩)),
            .label (.function "main"),
            .label (.block 0),
            .assign .param (.slot (.var "n")),
            .binary ⟨2⟩ .lt (.slot (.temp ⟨1⟩)) (.slot (.var "n")),
            .ifFalseGoto (.slot (.temp ⟨2⟩)) (.block 1),
            .assign (.slot (.temp ⟨3⟩)) (.const 42),
            .assign (.slot (.var "n")) (.slot (.temp ⟨3⟩)),
            .assign .ret .empty,
            .label (.block 1)] ∧
        compilation.optimized.WellFormed := by
  intro poll main sample names
  have fewTemps : names.temps < 2 ^ 32 := by decide
  have fewLabels : names.labels < 2 ^ 32 := by decide
  refine ⟨fewTemps, fewLabels, ?_⟩
  have noErrors : sample.analyze.hasErrors = false := by decide
  obtain ⟨compilation, isCompiled⟩ := Program.exists_compile noErrors {}
  refine ⟨compilation, isCompiled, ?_,
    compile_wellFormed sample {} compilation isCompiled fewTemps fewLabels⟩
  rw [(Program.compile_inversion isCompiled).2]
  decide +kernel

end MiddleEnd
