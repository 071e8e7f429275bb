import MiddleEnd.Compilation
import MiddleEnd.Proofs.Analysis.Tracking

/-!
Contract: what it takes for a program to be compiled.

A compiled program has no errors, so no event of its walk breaks a scoping rule. In particular no
two of its functions have the same name. Its code is the lowered one, run through the passes if the
options say so.

Owns: what acceptance says of a program and of its compilation.
Does not own: the code (`MiddleEnd.Proofs.Lowering.Wiring`).
-/

namespace MiddleEnd

theorem mem_pastsFrom {Item : Type} (past items rest : List Item) (item : Item) :
    (past ++ items, item) ∈ pastsFrom past (items ++ item :: rest) := by
  induction items generalizing past with
  | nil => simp [pastsFrom]
  | cons head tail inductionHypothesis =>
      have later := inductionHypothesis (past ++ [head])
      rw [List.append_assoc, List.singleton_append] at later
      exact List.mem_cons_of_mem _ later

/-- In a history without violations no event is one. -/
theorem History.violation?_eq_none {past rest : History} {event : Event}
    (clean : History.violations (past ++ event :: rest) = []) :
    event.violation? past = none :=
  List.filterMap_eq_nil_iff.1 clean (past, event) (mem_pastsFrom [] past rest event)

namespace Program

variable {program : Program}

theorem nodup_functionNames (clean : program.events.violations = []) :
    (program.functions.map (·.name.name)).Nodup := by
  rw [List.Nodup, List.pairwise_map, List.pairwise_iff_getElem]
  intro early late earlyInside lateInside before same
  -- The later function is declared when the earlier one is in the past.
  have split : program.events =
      (program.functions.take late).flatMap FunctionDecl.events ++
        .declare globalScope (.function program.functions[late]) ::
          (program.functions[late].events.tail ++
            (program.functions.drop (late + 1)).flatMap FunctionDecl.events) := by
    have functions : program.functions = program.functions.take late ++
        program.functions[late] :: program.functions.drop (late + 1) := by
      rw [← List.drop_eq_getElem_cons lateInside, List.take_append_drop]
    conv_lhs => rw [events, functions, List.flatMap_append, List.flatMap_cons]
    rfl
  rw [split] at clean
  have isNew := History.violation?_eq_none clean
  have earlyPast : program.functions[early] ∈ program.functions.take late := by
    apply List.mem_of_getElem?
    rw [List.getElem?_take_of_lt before, List.getElem?_eq_getElem earlyInside]
  have declaredBefore : Event.declare globalScope (.function program.functions[early]) ∈
      (program.functions.take late).flatMap FunctionDecl.events :=
    List.mem_flatMap.2 ⟨_, earlyPast, List.mem_cons_self ..⟩
  simp only [Event.violation?] at isNew
  split at isNew
  · cases isNew
  · rename_i undeclared
    have different := List.findSome?_eq_none_iff.1 undeclared _ declaredBefore
    simp [Event.declares?, Declared.name, Declared.symbol, same] at different

theorem exists_compile (noErrors : program.analyze.hasErrors = false) (options : Options) :
    ∃ compilation, program.compile options = .ok compilation := by
  rw [compile, if_neg (by simp [noErrors])]
  exact ⟨_, rfl⟩

/-- A compiled program has no errors, and its code is lowered and then optimized if the options say
so. -/
theorem compile_inversion {options : Options} {compilation : Compilation}
    (accepted : program.compile options = .ok compilation) :
    program.events.violations = [] ∧
      compilation.optimized =
        if options.optimize then
          (Optimizer.optimize options.entryFunction (program.lower program.analyze.table)).code
        else program.lower program.analyze.table := by
  simp only [compile] at accepted
  split at accepted
  · cases accepted
  · rename_i noErrors
    cases accepted
    constructor
    · rw [← (Analysis.tracks_program program).errors]
      simpa [Analysis.hasErrors, analyze] using noErrors
    · dsimp only
      split <;> rfl

end Program

end MiddleEnd
