import MiddleEnd.Proofs.Analysis.Tracking

/-!
Contract: the analyzer reports exactly what the history of a program says.

The errors are the scoping violations (`analyze_errors_eq_violations`). The symbols are the
earliest declarations with the flags that the uses give them, and the warnings are the doubtful
reads followed by the unused symbols (`analyze_symbols_and_warnings`). Both hold of every program,
also of one with errors. In the finished table every symbol is found under its own name
(`analyze_lookupIn_name`).

Owns: the three statements about `Program.analyze`.
-/

namespace MiddleEnd

namespace History

/-- The scope and the name of each declared symbol, in order. -/
def declaredPairs (history : History) : List (String × String) :=
  history.declarations.map fun entry => (entry.1, entry.2.name)

theorem map_pair_symbols (history : History) :
    (history.symbols.map fun symbol => (symbol.scope, symbol.name)) = history.declaredPairs := by
  unfold symbols declaredPairs
  apply List.ext_getElem
  · simp
  · intro index _ _
    simp only [List.getElem_map, List.getElem_mapIdx]
    rfl

theorem mem_declaredPairs_iff (history : History) (scope name : String) :
    (scope, name) ∈ history.declaredPairs ↔ (history.declaration? scope name).isSome := by
  have found := history.find?_declarations scope name
  rw [← Option.isSome_map, ← found, List.find?_isSome]
  simp [declaredPairs]

theorem nodup_declaredPairs (history : History) : history.declaredPairs.Nodup := by
  induction history using List.reverseRecOn with
  | nil => exact List.nodup_nil
  | append_singleton earlier event inductionHypothesis =>
      rw [declaredPairs, declarations_concat, List.map_append, ← declaredPairs]
      cases event with
      | use _ _ _ =>
          rw [Event.first?, Option.toList_none, List.map_nil, List.append_nil]
          exact inductionHypothesis
      | declare scope declared =>
          cases new : declaration? earlier scope declared.name with
          | some _ =>
              simp only [Event.first?, new, Option.toList_none, List.map_nil, List.append_nil]
              exact inductionHypothesis
          | none =>
              have absent : (scope, declared.name) ∉ declaredPairs earlier := by
                rw [mem_declaredPairs_iff, new]
                exact Bool.false_ne_true
              simp only [Event.first?, new, Option.toList_some, List.map_cons, List.map_nil]
              rw [List.nodup_append]
              refine ⟨inductionHypothesis, List.pairwise_singleton _ _, ?_⟩
              intro pair member other isNew same
              rw [List.mem_singleton] at isNew
              rw [same, isNew] at member
              exact absent member

end History

/-- The errors of the analysis are the scoping violations of the program: a declaration of a name
that its scope has already, with the position of the earliest one, and a use of a name that neither
its function nor the global scope has declared before. -/
theorem analyze_errors_eq_violations (program : Program) :
    program.analyze.errors = program.events.violations :=
  (Analysis.tracks_program program).errors

/-- The symbols of the analysis are the declared names, each once, described by their earliest
declarations and by the uses that stand for them. The warnings are the first reads of variables
without a value, then the symbols that nothing uses. -/
theorem analyze_symbols_and_warnings (program : Program) :
    (program.analyze.table.symbols.map fun symbol => (symbol.scope, symbol.name)).Nodup ∧
      (∀ scope name,
        (scope, name) ∈
            (program.analyze.table.symbols.map fun symbol => (symbol.scope, symbol.name)) ↔
          (program.events.declaration? scope name).isSome) ∧
      program.analyze.table.symbols = program.events.symbols ∧
      program.analyze.warnings = program.events.doubtfulReads ++ program.events.unused := by
  have tracks := Analysis.tracks_program program
  have symbols : program.analyze.table.symbols = program.events.symbols := by
    obtain ⟨made, refines⟩ := tracks.table
    rw [← History.map_symbol_entries]
    exact refines.symbols
  have unused : Analysis.unusedWarnings program.analyze.table = program.events.unused := by
    rw [Analysis.unusedWarnings, symbols, History.unused]
    congr 2
    funext symbol
    rw [Bool.eq_iff_iff]
    simp
  refine ⟨?_, ?_, symbols, ?_⟩
  · rw [symbols, History.map_pair_symbols]
    exact program.events.nodup_declaredPairs
  · intro scope name
    rw [symbols, History.map_pair_symbols]
    exact program.events.mem_declaredPairs_iff scope name
  · rw [← unused, ← tracks.warnings]
    rfl

/-- In the finished table the symbol of a name in a scope is its earliest declaration there. -/
theorem analyze_lookupIn (program : Program) (scope name : String) :
    program.analyze.table.lookupIn scope name =
      (program.events.declaration? scope name).map fun declared =>
        program.events.describe (program.events.orderOf scope name) (scope, declared) :=
  (Analysis.tracks_program program).toLogs.lookupIn scope name

/-- In the finished table a symbol is found under its own name only. -/
theorem analyze_lookupIn_name {program : Program} {scope name : String} {symbol : Symbol}
    (found : program.analyze.table.lookupIn scope name = some symbol) : symbol.name = name := by
  rw [analyze_lookupIn] at found
  obtain ⟨declared, isDeclared, same⟩ := Option.map_eq_some_iff.1 found
  rw [← same, Analysis.describe_name]
  exact History.declaration?_name isDeclared

end MiddleEnd
