import MiddleEnd.Proofs.Symbols.Refinement

/-!
Contract: what a symbol table holds after any sequence of calls.

A run is a list of calls on a table. Some things can be said of it without looking into a table:
which scopes it enters, which of them it has not left, and which symbols it hands in with success.
`Log.Records` says that a log is what these determine. The table acts as its log does through the
whole run (`Refines.run`), and each call keeps the record (`Refines.records_apply`), so that the
table at the end can be read off the calls (`run_faithful`).

Owns: runs, the insertions that a run has made, and the invariants of all runs.
Does not own: what the searches find in such a table (`MiddleEnd.Proofs.Symbols.Searches`).
-/

namespace MiddleEnd

/-- The symbol without the parts that may change while it is in a table. -/
def Symbol.fixed (symbol : Symbol) : Symbol :=
  { symbol with name := "", isInitialized := false, isUsed := false }

theorem Symbol.eq_of_fixed_eq {symbol other : Symbol} (same : symbol.fixed = other.fixed) :
    symbol = { other with
      name := symbol.name
      isInitialized := symbol.isInitialized
      isUsed := symbol.isUsed } := by
  cases symbol
  cases other
  simp only [fixed, mk.injEq] at same
  simp only [mk.injEq]
  grind

/-- The entry without the parts of its symbol that may change. -/
def Entry.fixed (entry : Entry) : Entry := { entry with symbol := entry.symbol.fixed }

namespace Table

/-! ### Runs -/

/-- A call that may change a table. -/
inductive Operation where
  | enter (scope : String)
  | leave
  | insert (symbol : Symbol)
  | update (name : String) (change : Symbol.Change)
deriving DecidableEq, Repr

namespace Operation

/-- The scope that a call enters. -/
def entered? : Operation → Option String
  | enter scope => some scope
  | leave => none
  | insert _ => none
  | update _ _ => none

/-- The scopes entered and not left after a call, innermost first. With none to leave, leaving
changes nothing. -/
def nest (nested : List String) : Operation → List String
  | enter scope => scope :: nested
  | leave => nested.tail
  | insert _ => nested
  | update _ _ => nested

/-- The scopes that calls have entered and not left, innermost first. -/
def nesting (operations : List Operation) : List String := operations.foldl nest []

theorem nesting_concat (operations : List Operation) (operation : Operation) :
    nesting (operations ++ [operation]) = operation.nest (nesting operations) :=
  List.foldl_concat ..

end Operation

/-- The table after a call. A refused call changes nothing. -/
def apply (table : Table) : Operation → Table
  | .enter scope => table.enter scope
  | .leave => table.leave
  | .insert symbol =>
      match table.insert symbol with
      | .ok next => next
      | .error _ => table
  | .update name change => table.modify name (·.change change)

/-- The table after calls in order. -/
def run (table : Table) (operations : List Operation) : Table := operations.foldl apply table

/-- A symbol that a table has accepted, as it was handed in, and the innermost scope that had been
entered and not left. -/
structure Insertion where
  scope : String
  given : Symbol
deriving DecidableEq, Repr

/-- The insertion that a call makes, if the table accepts it. -/
def insertion? (table : Table) (nested : List String) : Operation → Option Insertion
  | .enter _ => none
  | .leave => none
  | .insert symbol =>
      match table.insert symbol with
      | .ok _ => some ⟨nested.headD globalScope, symbol⟩
      | .error _ => none
  | .update _ _ => none

/-- The insertions that calls make, in order, inside some scopes. -/
def insertionsFrom (table : Table) (nested : List String) : List Operation → List Insertion
  | [] => []
  | operation :: rest =>
      (table.insertion? nested operation).toList ++
        (table.apply operation).insertionsFrom (operation.nest nested) rest

/-- The insertions that a run makes, in order. -/
def insertions (operations : List Operation) : List Insertion := start.insertionsFrom [] operations

/-- The entry of an insertion. -/
def Insertion.entry (order : Nat) (insertion : Insertion) : Entry :=
  { scope := insertion.scope
    key := insertion.given.name
    symbol := { insertion.given with scope := insertion.scope, insertionOrder := order } }

/-! ### The log of a run -/

end Table

namespace Log

open Table (Operation Insertion)

/-- The log after a call. -/
def apply (log : Log) : Operation → Log
  | .enter scope => log.enter scope
  | .leave => log.leave
  | .insert symbol =>
      match log.insert symbol with
      | .ok next => next
      | .error _ => log
  | .update name change => log.modify name (·.change change)

/-- The log after calls in order. -/
def run (log : Log) (operations : List Operation) : Log := operations.foldl apply log

/-- A log is what some insertions and some calls determine. -/
structure Records (inserted : List Insertion) (calls : List Operation) (log : Log) : Prop where
  entries : log.entries.map Entry.fixed = inserted.mapIdx fun order insertion =>
    (insertion.entry order).fixed
  scopes : log.scopes = (globalScope :: calls.filterMap Operation.entered?).eraseDups
  entered : log.entered = Operation.nesting calls

namespace Records

variable {inserted : List Insertion} {calls : List Operation} {log : Log}

theorem start : Records [] [] Log.start where
  entries := rfl
  scopes := rfl
  entered := rfl

theorem size_eq (records : Records inserted calls log) : log.size = inserted.length := by
  have lengths := congrArg List.length records.entries
  rwa [List.length_map, List.length_mapIdx] at lengths

theorem current_eq (records : Records inserted calls log) :
    log.current = (Operation.nesting calls).headD globalScope := by
  rw [Log.current, records.entered]

theorem eraseDups_concat (scopes : List String) (scope : String) :
    (scopes ++ [scope]).eraseDups =
      if scope ∈ scopes.eraseDups then scopes.eraseDups else scopes.eraseDups ++ [scope] := by
  rw [List.eraseDups_append, List.removeAll, List.filter_singleton]
  by_cases old : scope ∈ scopes <;> simp [old, List.mem_eraseDups, List.eraseDups_cons]

theorem enter (records : Records inserted calls log) (scope : String) :
    Records inserted (calls ++ [.enter scope]) (log.enter scope) := by
  refine ⟨records.entries, ?_, ?_⟩
  · have grown : (calls ++ [Operation.enter scope]).filterMap Operation.entered? =
        calls.filterMap Operation.entered? ++ [scope] := List.filterMap_append
    rw [scopes_enter, grown, ← List.cons_append, eraseDups_concat, ← records.scopes]
  · rw [Operation.nesting_concat, ← records.entered]
    rfl

/-- A call that enters no scope adds none. -/
theorem scopes_of_entered?_eq_none (records : Records inserted calls log) {operation : Operation}
    (entersNone : operation.entered? = none) :
    log.scopes =
      (globalScope :: (calls ++ [operation]).filterMap Operation.entered?).eraseDups := by
  rw [List.filterMap_append, List.filterMap_cons_none entersNone, List.filterMap_nil,
    List.append_nil]
  exact records.scopes

theorem leave (records : Records inserted calls log) :
    Records inserted (calls ++ [.leave]) log.leave := by
  refine ⟨records.entries, records.scopes_of_entered?_eq_none rfl, ?_⟩
  rw [Operation.nesting_concat, ← records.entered]
  rfl

theorem refuse (records : Records inserted calls log) (symbol : Symbol) :
    Records inserted (calls ++ [.insert symbol]) log := by
  refine ⟨records.entries, records.scopes_of_entered?_eq_none rfl, ?_⟩
  rw [Operation.nesting_concat, ← records.entered]
  rfl

theorem insert (records : Records inserted calls log) {symbol : Symbol} {next : Log}
    (accepted : log.insert symbol = .ok next) :
    Records (inserted ++ [⟨(Operation.nesting calls).headD globalScope, symbol⟩])
      (calls ++ [.insert symbol]) next := by
  obtain ⟨_, rfl⟩ := insert_eq_ok_iff.1 accepted
  refine ⟨?_, records.scopes_of_entered?_eq_none rfl, ?_⟩
  · rw [List.map_append, records.entries, List.mapIdx_concat, ← records.current_eq]
    simp [Insertion.entry, stamp, records.size_eq]
  · rw [Operation.nesting_concat, ← records.entered]
    rfl

theorem update (records : Records inserted calls log) (name : String) (change : Symbol.Change) :
    Records inserted (calls ++ [.update name change]) (log.modify name (·.change change)) := by
  refine ⟨?_, ?_, ?_⟩
  · rw [map_entries_modify log name _ fun _ => rfl]
    exact records.entries
  · rw [scopes_modify]
    exact records.scopes_of_entered?_eq_none rfl
  · rw [modify_entered, Operation.nesting_concat, ← records.entered]
    rfl

end Records

end Log

namespace Table

open Log (Records)

variable {table : Table} {log : Log} {inserted : List Insertion} {calls : List Operation}

/-- One call leads from a table and its log to a table and its log. -/
theorem Refines.apply (refines : table.Refines log) (operation : Operation) :
    (table.apply operation).Refines (log.apply operation) := by
  cases operation with
  | enter scope => exact refines.enter scope
  | leave => exact refines.leave
  | insert symbol =>
      rw [Table.apply, Log.apply]
      cases outcome : log.insert symbol with
      | error clash =>
          rw [refines.insert_eq_error outcome]
          exact refines
      | ok next =>
          obtain ⟨grown, accepted, refinesNext⟩ := refines.insert outcome
          rw [accepted]
          exact refinesNext
  | update name change =>
      have keepsOrder : ∀ symbol : Symbol,
          (symbol.change change).insertionOrder = symbol.insertionOrder := fun _ => rfl
      exact refines.modify keepsOrder name

theorem Refines.run (refines : table.Refines log) (operations : List Operation) :
    (table.run operations).Refines (log.run operations) := by
  induction operations generalizing table log with
  | nil => exact refines
  | cons operation rest inductionHypothesis => exact inductionHypothesis (refines.apply operation)

theorem refines_run (operations : List Operation) :
    (start.run operations).Refines (Log.start.run operations) :=
  Refines.start.run operations

/-- One call keeps the record, and adds the insertion that it makes. -/
theorem Refines.records_apply (refines : table.Refines log) (records : Records inserted calls log)
    (operation : Operation) :
    Records (inserted ++ (table.insertion? (Operation.nesting calls) operation).toList)
      (calls ++ [operation]) (log.apply operation) := by
  cases operation with
  | enter scope =>
      rw [insertion?, Option.toList_none, List.append_nil]
      exact records.enter scope
  | leave =>
      rw [insertion?, Option.toList_none, List.append_nil]
      exact records.leave
  | insert symbol =>
      rw [insertion?, Log.apply]
      cases outcome : log.insert symbol with
      | error clash =>
          rw [refines.insert_eq_error outcome, Option.toList_none, List.append_nil]
          exact records.refuse symbol
      | ok next =>
          obtain ⟨grown, accepted, _⟩ := refines.insert outcome
          rw [accepted]
          exact records.insert outcome
  | update name change =>
      rw [insertion?, Option.toList_none, List.append_nil]
      exact records.update name change

theorem Refines.records_run (refines : table.Refines log) (records : Records inserted calls log)
    (operations : List Operation) :
    Records (inserted ++ table.insertionsFrom (Operation.nesting calls) operations)
      (calls ++ operations) (log.run operations) := by
  induction operations generalizing table log inserted calls with
  | nil =>
      rw [insertionsFrom, List.append_nil, List.append_nil]
      exact records
  | cons operation rest inductionHypothesis =>
      have after := inductionHypothesis (refines.apply operation)
        (refines.records_apply records operation)
      rw [Operation.nesting_concat, List.append_assoc, List.append_assoc] at after
      exact after

theorem records_run (operations : List Operation) :
    Records (insertions operations) operations (Log.start.run operations) :=
  Refines.start.records_run .start operations

/-- After any run the table is a log of the insertions that it accepted. The symbol at an index has
that index as its order, the innermost scope that had been entered and not left when it was
inserted, and all that it was given but for its flags and its name. Scopes stand in the order in
which they were first entered, after the global one, and names and ids are in bijection. The active
scopes are those entered and not left, over the global one, which is refused to be left; each is
stored. -/
theorem run_faithful (operations : List Operation) :
    let table := start.run operations
    let inserted := insertions operations
    table.size = inserted.length ∧ table.symbols.length = inserted.length ∧
      (∀ (index : Nat) (insertion : Insertion), inserted[index]? = some insertion →
        ∃ name isInitialized isUsed, table.symbols[index]? =
          some { insertion.given with
            scope := insertion.scope
            insertionOrder := index
            name, isInitialized, isUsed }) ∧
      table.scopes.Nodup ∧ table.scopes.head? = some globalScope ∧
      table.scopes = (globalScope :: operations.filterMap Operation.entered?).eraseDups ∧
      (∀ scope id, table.ids.lookup scope = some id ↔ table.scopes[id]? = some scope) ∧
      table.active = Operation.nesting operations ++ [globalScope] ∧
      table.current = (Operation.nesting operations).headD globalScope ∧
      table.active ≠ [] ∧ table.active.getLast? = some globalScope ∧
      (∀ scope ∈ table.active, scope ∈ table.scopes) ∧
      (∀ id ∈ table.stack, id < table.arena.length) ∧
      (table.leave? = none ↔ Operation.nesting operations = []) := by
  intro table inserted
  have refines : table.Refines (Log.start.run operations) := refines_run operations
  have records := records_run operations
  rw [refines.size, refines.symbols, refines.scopes, refines.active, refines.current,
    refines.leave?_eq_none_iff, ← records.entered]
  refine ⟨records.size_eq, ?_, ?_, refines.wellFormed.scopes, rfl, records.scopes, refines.ids, rfl,
    rfl, ?_, ?_, refines.wellFormed.active, refines.lt_length_arena, .rfl⟩
  · rw [Log.symbols, List.length_map]
    exact records.size_eq
  · intro index insertion present
    have atIndex := congrArg (fun entries => entries[index]?) records.entries
    simp only [List.getElem?_map, List.getElem?_mapIdx] at atIndex
    rw [present, Option.map_some, Option.map_eq_some_iff] at atIndex
    obtain ⟨entry, found, same⟩ := atIndex
    refine ⟨entry.symbol.name, entry.symbol.isInitialized, entry.symbol.isUsed, ?_⟩
    rw [Log.symbols, List.getElem?_map, found, Option.map_some]
    exact congrArg some (Symbol.eq_of_fixed_eq (congrArg Entry.symbol same))
  · simp [Log.active]
  · simp [Log.active]

end Table

end MiddleEnd
