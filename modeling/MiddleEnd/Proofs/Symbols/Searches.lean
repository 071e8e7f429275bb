import MiddleEnd.Proofs.Symbols.Runs

/-!
Contract: all searches of a table are one search over scopes.

A search goes through a list of scopes and takes the first that has the name (`FirstHit`). The
plain search goes through all active scopes, and the search from a scope through the active ones
from that scope on. A change made to the symbol of a name is a change of the very symbol that the
plain search finds: it is seen under that scope and name, and nowhere else. All of this is a matter
of names, so it is shown of logs, and the refinement carries it to tables (`run_searches_agree`).

Owns: the searches and changes in terms of `lookupIn`.
Does not own: what can be logged in the first place (`MiddleEnd.Proofs.Symbols.Runs`).
-/

namespace MiddleEnd

/-- A scope is the first of some scopes in which there is something to find, and this is what is
found there. -/
structure FirstHit (find : String → Option Symbol) (scopes : List String) (scope : String)
    (symbol : Symbol) : Prop where
  found : find scope = some symbol
  first : ∃ inner outer, scopes = inner ++ scope :: outer ∧ ∀ other ∈ inner, find other = none

theorem findSome?_eq_some_iff_firstHit {find : String → Option Symbol} {scopes : List String}
    {symbol : Symbol} :
    scopes.findSome? find = some symbol ↔ ∃ scope, FirstHit find scopes scope symbol := by
  rw [List.findSome?_eq_some_iff]
  constructor
  · rintro ⟨inner, scope, outer, parts, found, before⟩
    exact ⟨scope, found, inner, outer, parts, before⟩
  · rintro ⟨scope, found, inner, outer, parts, before⟩
    exact ⟨inner, scope, outer, parts, found, before⟩

namespace Log

variable {log : Log} {name scope : String} {symbol : Symbol}

/-! ### Searches -/

/-- The active scopes from the innermost occurrence of a scope on. -/
theorem dropWhile_active (log : Log) (origin : String) :
    log.active.dropWhile (· != origin) = log.active.drop (log.active.idxOf origin) := by
  rw [List.dropWhile_eq_drop_findIdx_not, List.idxOf]
  simp only [bne, Bool.not_not]

theorem lookupFrom_eq_some_iff {origin : String} :
    log.lookupFrom origin name = some symbol ↔
      (∃ scope, FirstHit (log.lookupIn · name) (log.active.drop (log.active.idxOf origin)) scope
        symbol) ∨
        ((∀ scope ∈ log.active.drop (log.active.idxOf origin), log.lookupIn scope name = none) ∧
          log.lookupIn globalScope name = some symbol) := by
  rw [lookupFrom, dropWhile_active, Option.or_eq_some_iff, findSome?_eq_some_iff_firstHit,
    List.findSome?_eq_none_iff]

/-- The global scope is active, so it has been asked before it is asked last. -/
theorem lookup_or_global (log : Log) (name : String) :
    (log.lookup name).or (log.lookupIn globalScope name) = log.lookup name := by
  cases found : log.lookup name with
  | some symbol => rfl
  | none =>
      rw [lookup, List.findSome?_eq_none_iff] at found
      rw [Option.none_or]
      exact found globalScope (List.mem_append_right _ (List.mem_singleton_self globalScope))

theorem lookupFrom_current (log : Log) (name : String) :
    log.lookupFrom log.current name = log.lookup name := by
  obtain ⟨outer, isActive⟩ := log.exists_active_eq_cons
  have all : log.active.dropWhile (· != log.current) = log.active := by
    rw [isActive, List.dropWhile_cons_of_neg]
    simp
  rw [lookupFrom, all]
  exact log.lookup_or_global name

/-! ### Changes -/

/-- What a change does to one entry. -/
theorem entries_modify_of_firstHit (hit : FirstHit (log.lookupIn · name) log.active scope symbol)
    (change : Symbol → Symbol) :
    (log.modify name change).entries = log.entries.map fun entry =>
      if entry.isFor scope name then { entry with symbol := change entry.symbol } else entry := by
  have isScope : log.scopeOf? name = some scope := by
    obtain ⟨inner, outer, parts, before⟩ := hit.first
    rw [scopeOf?, List.find?_eq_some_iff_append]
    refine ⟨by simp [hit.found], inner, outer, parts, ?_⟩
    intro other member
    simp [before other member]
  rw [modify, isScope]

theorem lookupIn_modify_of_firstHit (hit : FirstHit (log.lookupIn · name) log.active scope symbol)
    (change : Symbol → Symbol) (place key : String) :
    (log.modify name change).lookupIn place key =
      if place = scope ∧ key = name then some (change symbol) else log.lookupIn place key := by
  have samePlace : ∀ entry : Entry,
      (if entry.isFor scope name then { entry with symbol := change entry.symbol }
        else entry).isFor place key = entry.isFor place key := by
    intro entry
    split <;> rfl
  rw [lookupIn, entries_modify_of_firstHit hit, List.find?_map]
  simp only [Function.comp_def, samePlace]
  by_cases same : place = scope ∧ key = name
  · obtain ⟨rfl, rfl⟩ := same
    obtain ⟨entry, found, isSymbol⟩ := Option.map_eq_some_iff.1 hit.found
    have isHere : entry.isFor place key = true := by simpa using List.find?_some found
    rw [if_pos ⟨rfl, rfl⟩, found, ← isSymbol]
    simp [isHere]
  · rw [if_neg same, lookupIn]
    cases found : log.entries.find? (·.isFor place key) with
    | none => rfl
    | some entry =>
        have isElsewhere : entry.isFor scope name = false := by
          have isHere : entry.isFor place key = true := by simpa using List.find?_some found
          rw [Entry.isFor_iff] at isHere
          rw [← Bool.not_eq_true, Entry.isFor_iff, isHere.1, isHere.2]
          exact same
        simp [isElsewhere]

/-- In a log without two entries for one place, a change touches one symbol. -/
theorem symbols_modify_of_firstHit (hit : FirstHit (log.lookupIn · name) log.active scope symbol)
    (distinct : log.places.Nodup) (change : Symbol → Symbol) :
    ∃ index : Nat, log.symbols[index]? = some symbol ∧
      (log.modify name change).symbols = log.symbols.set index (change symbol) := by
  obtain ⟨entry, found, isSymbol⟩ := Option.map_eq_some_iff.1 hit.found
  obtain ⟨index, inside, isEntry⟩ := List.getElem_of_mem (List.mem_of_find?_eq_some found)
  have isHere : entry.isFor scope name = true := by simpa using List.find?_some found
  refine ⟨index, ?_, ?_⟩
  · rw [symbols, List.getElem?_map, List.getElem?_eq_getElem inside, isEntry, Option.map_some,
      isSymbol]
  · rw [symbols, symbols, entries_modify_of_firstHit hit, List.map_map]
    apply List.ext_getElem
    · simp
    · intro other otherInside _
      simp only [List.length_map] at otherInside
      simp only [List.getElem_map, Function.comp_apply, List.getElem_set]
      by_cases same : index = other
      · subst same
        simp [isEntry, isHere, isSymbol]
      · -- Another entry for the place would be a second one.
        have isElsewhere : log.entries[other].isFor scope name = false := by
          rw [← Bool.not_eq_true]
          intro alsoHere
          have insidePlaces : index < log.places.length := by simpa [places] using inside
          have otherPlaces : other < log.places.length := by simpa [places] using otherInside
          have samePlace : log.places[index] = log.places[other] := by
            rw [Entry.isFor_iff] at isHere alsoHere
            simp [places, isEntry, isHere, alsoHere]
          exact same (distinct.getElem_inj_iff.1 samePlace)
        simp [isElsewhere, same]

end Log

namespace Table

theorem modify_of_lookup_eq_none {table : Table} {name : String}
    (missing : table.lookup name = none) (change : Symbol → Symbol) :
    table.modify name change = table := by
  have nowhere : table.idOf? name = none := by
    rw [lookup, List.findSome?_eq_none_iff] at missing
    rw [idOf?, List.find?_eq_none]
    intro id member
    simp [missing id member]
  rw [modify, nowhere]

theorem stack_modify (table : Table) (name : String) (change : Symbol → Symbol) :
    (table.modify name change).stack = table.stack := by
  unfold modify
  split <;> rfl

/-- After any run the searches are searches for the first hit: the plain one in the active scopes,
the one from a scope in those from its innermost occurrence on, with the global scope asked last.
A change made through a name touches the symbol that the plain search finds. All other places, the
orders of insertion and the active stack are as before. -/
theorem run_searches_agree (operations : List Operation) (name : String) :
    let table := start.run operations
    (∀ symbol, table.lookup name = some symbol ↔
        ∃ scope, FirstHit (table.lookupIn · name) table.active scope symbol) ∧
      (∀ origin symbol, table.lookupFrom origin name = some symbol ↔
        (∃ scope, FirstHit (table.lookupIn · name)
          (table.active.drop (table.active.idxOf origin)) scope symbol) ∨
          ((∀ scope ∈ table.active.drop (table.active.idxOf origin),
              table.lookupIn scope name = none) ∧
            table.lookupIn globalScope name = some symbol)) ∧
      table.lookupFrom table.current name = table.lookup name ∧
      (table.lookup name = none →
        ∀ change : Symbol.Change, table.modify name (·.change change) = table) ∧
      ∀ scope symbol, FirstHit (table.lookupIn · name) table.active scope symbol →
        ∀ change : Symbol.Change,
          let updated := table.modify name (·.change change)
          updated.lookupIn scope name = some (symbol.change change) ∧
            (∀ place key, (place, key) ≠ (scope, name) →
              updated.lookupIn place key = table.lookupIn place key) ∧
            (∃ index : Nat, table.symbols[index]? = some symbol ∧
              updated.symbols = table.symbols.set index (symbol.change change)) ∧
            updated.symbols.map Symbol.insertionOrder =
              table.symbols.map Symbol.insertionOrder ∧
            updated.stack = table.stack ∧ updated.active = table.active := by
  intro table
  have refines : table.Refines (Log.start.run operations) := refines_run operations
  have missed : table.lookup name = none →
      ∀ change : Symbol.Change, table.modify name (·.change change) = table :=
    fun missing change => modify_of_lookup_eq_none missing _
  refine ⟨?_, ?_, ?_, missed, ?_⟩
  · intro symbol
    rw [refines.lookup, refines.lookupIn, refines.active]
    exact findSome?_eq_some_iff_firstHit
  · intro origin symbol
    rw [refines.lookupFrom, refines.lookupIn, refines.active]
    exact Log.lookupFrom_eq_some_iff
  · rw [refines.lookupFrom, refines.lookup, refines.current]
    exact Log.lookupFrom_current _ name
  · intro scope symbol hit change updated
    have keepsOrder : ∀ symbol : Symbol,
        (symbol.change change).insertionOrder = symbol.insertionOrder := fun _ => rfl
    have refinesUpdated := refines.modify keepsOrder name
    rw [refines.lookupIn, refines.active] at hit
    rw [refinesUpdated.lookupIn, refinesUpdated.symbols, refinesUpdated.active, refines.lookupIn,
      refines.symbols, refines.active]
    refine ⟨?_, ?_, Log.symbols_modify_of_firstHit hit refines.wellFormed.places _,
      Log.map_symbols_modify _ name _ keepsOrder, stack_modify .., Log.active_modify ..⟩
    · rw [Log.lookupIn_modify_of_firstHit hit, if_pos ⟨rfl, rfl⟩]
    · intro place key elsewhere
      rw [Log.lookupIn_modify_of_firstHit hit, if_neg]
      rintro ⟨rfl, rfl⟩
      exact elsewhere rfl

end Table

end MiddleEnd
