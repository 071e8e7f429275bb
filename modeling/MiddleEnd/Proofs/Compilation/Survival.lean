import MiddleEnd.Proofs.Compilation.Acceptance
import MiddleEnd.Proofs.Lowering.Returns
import MiddleEnd.Proofs.Optimizer.WellFormed
import MiddleEnd.Tree.Shorthand

/-!
Contract: which functions are left in optimized code.

The elimination of dead code keeps what is reached, and the passes after it keep all labels. So the
entry of a function is left exactly if control gets into the function.

Owns: the labels that the optimizer keeps, and the functions that a compilation keeps.
Does not own: which functions control gets into (`MiddleEnd.Proofs.Lowering.Returns`).
-/

namespace MiddleEnd

theorem Code.mem_eliminateDead_iff {code : Code} {entry : String} {instruction : Instruction} :
    instruction ∈ code.eliminateDead entry ↔
      ∃ index, code.Reaches entry index ∧ code[index]? = some instruction := by
  rw [eliminateDead_eq_select]
  constructor
  · intro member
    obtain ⟨moved, here⟩ := List.mem_iff_getElem?.1 member
    obtain ⟨index, kept, _, fetched⟩ := exists_of_getElem?_select here
    exact ⟨index, mem_reachable_iff.1 (of_decide_eq_true kept), fetched⟩
  · rintro ⟨index, reached, fetched⟩
    exact mem_select_of_keep (decide_eq_true (mem_reachable_iff.2 reached)) fetched

/-- Only the elimination of dead code drops labels. -/
theorem Pass.label_mem_run_iff (pass : Pass) (other : pass ≠ .deadCode) (entry : String)
    (code : Code) (label : Label) : .label label ∈ pass.run entry code ↔ .label label ∈ code := by
  cases pass with
  | deadCode => exact absurd rfl other
  | constantPropagation =>
      rw [← List.count_pos_iff, ← List.count_pos_iff, run, Code.propagate,
        Code.count_label_rewritten (Code.propagateFrom_rewrites [] code)]
  | constantFolding =>
      rw [← List.count_pos_iff, ← List.count_pos_iff, run,
        Code.count_label_rewritten code.fold_rewrites]
  | redundantAssignment =>
      simp [run, Code.dropSelfAssignments, Instruction.isSelfAssignment]

theorem Optimizer.label_mem_runAll_iff (entry : String) (code : Code) (label : Label)
    {passes : List Pass} (others : .deadCode ∉ passes) :
    .label label ∈ (runAll entry code passes).code ↔ .label label ∈ code := by
  induction passes generalizing code with
  | nil => rfl
  | cons pass rest inductionHypothesis =>
      rw [List.mem_cons, not_or] at others
      rw [runAll, inductionHypothesis (pass.run entry code) others.2]
      exact pass.label_mem_run_iff (Ne.symm others.1) entry code label

/-- A label that is defined once is left by the optimizer exactly if it is reached. -/
theorem Optimizer.label_mem_optimize_iff {entry : String} {code : Code} {label : Label}
    {index : Nat} (once : code.count (.label label) ≤ 1)
    (defined : code[index]? = some (.label label)) :
    .label label ∈ (optimize entry code).code ↔ code.Reaches entry index := by
  rw [optimize, Pass.pipeline, runAll, label_mem_runAll_iff _ _ _ (by decide), Pass.run,
    Code.mem_eliminateDead_iff]
  constructor
  · rintro ⟨other, reached, there⟩
    rwa [Code.index_eq_of_count_le_one once defined there]
  · intro reached
    exact ⟨index, reached, defined⟩

/-- The entry of a function is left in the code of a compiled program exactly if control gets into
the function. -/
theorem Program.entry_mem_optimized_iff {program : Program} {options : Options}
    {compilation : Compilation} (optimizing : options.optimize = true)
    (accepted : program.compile options = .ok compilation)
    (fewLabels : (Lowering.lowerFunctions program.analyze.table .start
      program.functions).names.labels ≤ 2 ^ 32)
    {index : Nat} {function : FunctionDecl}
    (present : program.functions[index]? = some function) :
    .label (.function function.name.name) ∈ compilation.optimized ↔
      program.Enters options.entryFunction index := by
  obtain ⟨clean, optimized⟩ := compile_inversion accepted
  have once : ∀ label, (program.lower program.analyze.table).count (.label label) ≤ 1 :=
    Lowering.count_label_lowerFunctions (nodup_functionNames clean) fewLabels
  rw [optimized, if_pos optimizing,
    Optimizer.label_mem_optimize_iff (once _) (getElem?_entryIndex present)]
  exact reaches_entryIndex_iff once present

/-- The functions that are left in the optimized code of a compiled program: the first one, the
entry function, and each function after one that is left and does not return for certain. Block
labels are numbered by 32-bit words, of which none may be used twice. -/
theorem compile_entry_survives_iff (program : Program) (options : Options)
    (compilation : Compilation) (optimizing : options.optimize = true)
    (accepted : program.compile options = .ok compilation)
    (fewLabels : (Lowering.lowerFunctions program.analyze.table .start
      program.functions).names.labels ≤ 2 ^ 32)
    (index : Nat) (function : FunctionDecl)
    (present : program.functions[index]? = some function) :
    .label (.function function.name.name) ∈ compilation.optimized ↔
      index = 0 ∨ function.name.name = options.entryFunction ∨
        ∃ before previous, index = before + 1 ∧ program.functions[before]? = some previous ∧
          .label (.function previous.name.name) ∈ compilation.optimized ∧
          Stmt.anyReturns previous.body = false := by
  rw [Program.entry_mem_optimized_iff optimizing accepted fewLabels present,
    Program.enters_iff present]
  refine or_congr_right (or_congr_right ?_)
  apply exists_congr
  intro before
  apply exists_congr
  intro previous
  apply and_congr_right
  intro _
  apply and_congr_right
  intro presentBefore
  rw [Program.entry_mem_optimized_iff optimizing accepted fewLabels presentBefore]

open Shorthand in
/-- A function that returns on both ways of a branch, and the entry function, which may leave its
loop without returning. -/
theorem compile_entry_survives_chain :
    let sign := function "sign" ["n"]
      [branch (var "n") [ret (some (int 1))] (some [ret (some (int 0))])]
    let lost := function "lost" [] [declare "k" (some (int 1))]
    let main := function "main" ["n"] [whileLoop (var "n") [ret none]]
    let after := function "after" [] [ret none]
    let sample : Program := ⟨[sign, lost, main, after]⟩
    (Lowering.lowerFunctions sample.analyze.table .start sample.functions).names.labels ≤ 2 ^ 32 ∧
      ∃ compilation, sample.compile {} = .ok compilation ∧
        .label (.function "lost") ∉ compilation.optimized ∧
        .label (.function "main") ∈ compilation.optimized ∧
        .label (.function "after") ∈ compilation.optimized := by
  intro sign lost main after sample
  have fewLabels : (Lowering.lowerFunctions sample.analyze.table .start
      sample.functions).names.labels ≤ 2 ^ 32 := by decide
  have noErrors : sample.analyze.hasErrors = false := by decide
  obtain ⟨compilation, isCompiled⟩ := Program.exists_compile noErrors {}
  have survives := compile_entry_survives_iff sample {} compilation rfl isCompiled fewLabels
  have mainSurvives := (survives 2 main rfl).2 (Or.inr (Or.inl rfl))
  refine ⟨fewLabels, compilation, isCompiled, ?_, mainSurvives, ?_⟩
  · intro left
    rcases (survives 1 lost rfl).1 left with
      isFirst | isEntry | ⟨_, previous, isNext, present, _, completes⟩
    · cases isFirst
    · exact absurd isEntry (by decide)
    · cases isNext
      have isSign : sign = previous := Option.some.inj present
      rw [← isSign] at completes
      exact absurd completes (by decide)
  · exact (survives 3 after rfl).2 (Or.inr (Or.inr ⟨2, main, rfl, rfl, mainSurvives, by decide⟩))

end MiddleEnd
