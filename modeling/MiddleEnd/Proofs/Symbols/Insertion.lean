import MiddleEnd.Proofs.Symbols.Runs

/-!
Contract: an insertion is refused as a whole or adds one binding.

A table has a symbol for a scope and a name if and only if its run has inserted that name into that
scope before, whatever the symbol is called now, and the symbol keeps the position that it was
inserted with (`Records.exists_insertion`). So a refusal names the declaration that stands, and
leaves the table alone. An accepted symbol is found in the current scope, which is the first one
that is asked, and no search for another scope or another name can tell that it is there.

Owns: the searches after an insertion, and where the symbols of a table come from.
Does not own: the searches as such (`MiddleEnd.Proofs.Symbols.Searches`).
-/

namespace MiddleEnd

namespace Log

open Table (Operation Insertion)

variable {log next : Log} {symbol : Symbol}

/-- What is found for a name in a scope was inserted there under that name. -/
theorem Records.exists_insertion {inserted : List Insertion} {calls : List Operation}
    (records : Records inserted calls log) {scope name : String}
    (found : log.lookupIn scope name = some symbol) :
    ∃ earlier ∈ inserted, earlier.scope = scope ∧ earlier.given.name = name ∧
      earlier.given.declaredAt = symbol.declaredAt := by
  obtain ⟨entry, isFirst, isSymbol⟩ := Option.map_eq_some_iff.1 found
  have isHere : entry.isFor scope name = true := by simpa using List.find?_some isFirst
  rw [Entry.isFor_iff] at isHere
  have listed := List.mem_map_of_mem (f := Entry.fixed) (List.mem_of_find?_eq_some isFirst)
  rw [records.entries, List.mem_mapIdx] at listed
  obtain ⟨order, inside, same⟩ := listed
  refine ⟨inserted[order], List.getElem_mem inside, ?_, ?_, ?_⟩
  · exact (congrArg Entry.scope same).trans isHere.1
  · exact (congrArg Entry.key same).trans isHere.2
  · rw [← isSymbol]
    exact congrArg (fun entry => entry.symbol.declaredAt) same

/-! ### One insertion -/

/-- The search in one scope after an insertion: the new place has the new symbol, and every other
place has what it had. -/
theorem lookupIn_of_insert (accepted : log.insert symbol = .ok next) (scope name : String) :
    next.lookupIn scope name =
      if scope = log.current ∧ name = symbol.name then some (log.stamp symbol)
      else log.lookupIn scope name := by
  obtain ⟨new, rfl⟩ := insert_eq_ok_iff.1 accepted
  rw [← lookupIn_eq_none_iff, lookupIn, Option.map_eq_none_iff] at new
  rw [lookupIn, List.find?_append]
  by_cases here : scope = log.current ∧ name = symbol.name
  · obtain ⟨rfl, rfl⟩ := here
    rw [if_pos ⟨rfl, rfl⟩, new, Option.none_or, List.find?_cons_of_pos]
    · rfl
    · exact Entry.isFor_iff.2 ⟨rfl, rfl⟩
  · rw [if_neg here, List.find?_cons_of_neg, List.find?_nil, Option.or_none, lookupIn]
    rw [Entry.isFor_iff]
    rintro ⟨rfl, rfl⟩
    exact here ⟨rfl, rfl⟩

theorem active_of_insert (accepted : log.insert symbol = .ok next) : next.active = log.active := by
  obtain ⟨_, rfl⟩ := insert_eq_ok_iff.1 accepted
  rfl

theorem scopes_of_insert (accepted : log.insert symbol = .ok next) : next.scopes = log.scopes := by
  obtain ⟨_, rfl⟩ := insert_eq_ok_iff.1 accepted
  rfl

theorem symbols_of_insert (accepted : log.insert symbol = .ok next) :
    next.symbols = log.symbols ++ [log.stamp symbol] := by
  obtain ⟨_, rfl⟩ := insert_eq_ok_iff.1 accepted
  exact List.map_append

theorem lookup_of_insert (accepted : log.insert symbol = .ok next) :
    next.lookup symbol.name = some (log.stamp symbol) := by
  obtain ⟨outer, asked⟩ := log.exists_active_eq_cons
  rw [lookup, active_of_insert accepted, asked, List.findSome?_cons, lookupIn_of_insert accepted,
    if_pos ⟨rfl, rfl⟩]

theorem lookup_of_insert_other (accepted : log.insert symbol = .ok next) {name : String}
    (other : name ≠ symbol.name) : next.lookup name = log.lookup name := by
  have unseen : (next.lookupIn · name) = (log.lookupIn · name) := by
    funext scope
    rw [lookupIn_of_insert accepted, if_neg fun same => other same.2]
  rw [lookup, lookup, active_of_insert accepted, unseen]

end Log

namespace Table

theorem run_concat (table : Table) (operations : List Operation) (operation : Operation) :
    table.run (operations ++ [operation]) = (table.run operations).apply operation :=
  List.foldl_concat ..

/-- After any run an insertion is refused if and only if the current scope has the name, which the
run has then inserted there before. The refusal gives both positions and leaves the table as it is.
Otherwise the symbol gets the current scope and the next order, is found by its name, and stands
last in the log; no other scope, no other name and no active scope is touched. -/
theorem run_insert_exact (operations : List Operation) (symbol : Symbol) :
    let table := start.run operations
    let after := start.run (operations ++ [.insert symbol])
    let stored := { symbol with
      scope := table.current
      insertionOrder := table.size }
    (∀ clash, table.insert symbol = .error clash ↔
        ∃ existing, table.lookupIn table.current symbol.name = some existing ∧
          clash =
            { name := symbol.name
              scope := table.current
              first := existing.declaredAt
              second := symbol.declaredAt }) ∧
      (∀ clash, table.insert symbol = .error clash →
        after = table ∧
          ∃ earlier ∈ insertions operations, earlier.scope = table.current ∧
            earlier.given.name = symbol.name ∧ earlier.given.declaredAt = clash.first) ∧
      (table.lookupIn table.current symbol.name = none →
        table.insert symbol = .ok after ∧
          after.lookup symbol.name = some stored ∧
          after.lookupIn table.current symbol.name = some stored ∧
          after.size = table.size + 1 ∧
          (∀ scope name, (scope, name) ≠ (table.current, symbol.name) →
            after.lookupIn scope name = table.lookupIn scope name) ∧
          after.symbols = table.symbols ++ [stored] ∧
          (∀ name, name ≠ symbol.name → after.lookup name = table.lookup name) ∧
          after.active = table.active ∧ after.scopes = table.scopes) := by
  intro table after stored
  have refines : table.Refines (Log.start.run operations) := refines_run operations
  have isAfter : after = table.apply (.insert symbol) := run_concat ..
  refine ⟨?_, ?_, ?_⟩
  · intro clash
    rw [refines.insert_eq_error_iff, refines.lookupIn, refines.current]
    exact Log.insert_eq_error_iff
  · intro clash refused
    constructor
    · rw [isAfter, apply, refused]
    · obtain ⟨existing, found, rfl⟩ :=
        Log.insert_eq_error_iff.1 (refines.insert_eq_error_iff.1 refused)
      rw [refines.current]
      exact (records_run operations).exists_insertion found
  · intro new
    rw [refines.lookupIn, refines.current] at new
    have accepted := Log.insert_eq_ok_iff.2 ⟨Log.lookupIn_eq_none_iff.1 new, rfl⟩
    obtain ⟨grown, isGrown, refinesNext⟩ := refines.insert accepted
    have sameAfter : after = grown := by rw [isAfter, apply, isGrown]
    have sameStored : stored = (Log.start.run operations).stamp symbol := by
      rw [Log.stamp, ← refines.current, ← refines.size]
    rw [sameAfter, sameStored, refinesNext.lookup, refinesNext.lookupIn, refinesNext.size,
      refinesNext.symbols, refinesNext.active, refinesNext.scopes, refines.lookup,
      refines.lookupIn, refines.size, refines.symbols, refines.active, refines.scopes,
      refines.current]
    refine ⟨isGrown, Log.lookup_of_insert accepted, ?_, ?_, ?_, Log.symbols_of_insert accepted,
      fun _ => Log.lookup_of_insert_other accepted, Log.active_of_insert accepted,
      Log.scopes_of_insert accepted⟩
    · rw [Log.lookupIn_of_insert accepted, if_pos ⟨rfl, rfl⟩]
    · rw [Log.size, List.length_append]
      rfl
    · intro scope name elsewhere
      rw [Log.lookupIn_of_insert accepted, if_neg]
      rintro ⟨rfl, rfl⟩
      exact elsewhere rfl

end Table

end MiddleEnd
