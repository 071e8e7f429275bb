import Mathlib.Data.List.Nodup
import MiddleEnd.Symbols.Table

/-!
Contract: a table as a plain log of declarations.

A log has no ids, no maps and no counter. It lists the declarations with their scopes, the scopes
in the order in which they were made, and the active ones. Every search is a search by names, in
one list, and the number of a declaration is its place. This is what a table means: the arena, the
map of ids, the stack and the counter of `Table` only store it
(`MiddleEnd.Proofs.Symbols.Refinement`).

Owns: logs, their operations and searches, and what every operation keeps of them.
Does not own: that a table acts as its log does.
-/

namespace MiddleEnd

/-- One logged declaration: the scope, the name it is found under, and the symbol. -/
structure Entry where
  scope : String
  key : String
  symbol : Symbol
deriving DecidableEq, Repr

/-- Whether an entry is the one for a name in a scope. -/
def Entry.isFor (entry : Entry) (scope name : String) : Bool :=
  entry.scope == scope && entry.key == name

theorem Entry.isFor_iff {entry : Entry} {scope name : String} :
    entry.isFor scope name = true ↔ entry.scope = scope ∧ entry.key = name := by
  simp [isFor]

/-- The declarations so far, oldest first, the scopes made so far besides the global one, oldest
first, and the scopes entered and not left, innermost first. -/
structure Log where
  entries : List Entry
  made : List String
  entered : List String
deriving DecidableEq, Repr

namespace Log

/-- The log in which nothing is declared. -/
def start : Log := ⟨[], [], []⟩

/-! ### Views and searches -/

def scopes (log : Log) : List String := globalScope :: log.made

def active (log : Log) : List String := log.entered ++ [globalScope]

def current (log : Log) : String := log.entered.headD globalScope

def symbols (log : Log) : List Symbol := log.entries.map Entry.symbol

def size (log : Log) : Nat := log.entries.length

/-- The scope and the key of each entry. -/
def places (log : Log) : List (String × String) :=
  log.entries.map fun entry => (entry.scope, entry.key)

def lookupIn (log : Log) (scope name : String) : Option Symbol :=
  (log.entries.find? (·.isFor scope name)).map Entry.symbol

def lookup (log : Log) (name : String) : Option Symbol :=
  log.active.findSome? (log.lookupIn · name)

def lookupFrom (log : Log) (scope name : String) : Option Symbol :=
  ((log.active.dropWhile (· != scope)).findSome? (log.lookupIn · name)).or
    (log.lookupIn globalScope name)

/-- The innermost active scope that has a name. -/
def scopeOf? (log : Log) (name : String) : Option String :=
  log.active.find? fun scope => (log.lookupIn scope name).isSome

/-! ### Operations -/

def enter (log : Log) (scope : String) : Log :=
  { log with
    made := if scope ∈ log.scopes then log.made else log.made ++ [scope]
    entered := scope :: log.entered }

def leave (log : Log) : Log := { log with entered := log.entered.tail }

/-- The symbol as it is logged by the next insertion. -/
def stamp (log : Log) (symbol : Symbol) : Symbol :=
  { symbol with scope := log.current, insertionOrder := log.size }

def insert (log : Log) (symbol : Symbol) : Except Redeclaration Log :=
  match log.lookupIn log.current symbol.name with
  | some existing =>
      .error
        { name := symbol.name
          scope := log.current
          first := existing.declaredAt
          second := symbol.declaredAt }
  | none =>
      .ok { log with entries := log.entries ++ [⟨log.current, symbol.name, log.stamp symbol⟩] }

def modify (log : Log) (name : String) (change : Symbol → Symbol) : Log :=
  match log.scopeOf? name with
  | none => log
  | some scope =>
      { log with
        entries := log.entries.map fun entry =>
          if entry.isFor scope name then { entry with symbol := change entry.symbol } else entry }

variable {log next : Log} {symbol : Symbol}

/-! ### What an operation does -/

theorem lookupIn_eq_none_iff {scope name : String} :
    log.lookupIn scope name = none ↔ (scope, name) ∉ log.places := by
  simp [lookupIn, places, Entry.isFor_iff]

/-- An insertion is accepted if and only if the current scope has no such name, and then the
stamped symbol is added at the end. -/
theorem insert_eq_ok_iff :
    log.insert symbol = .ok next ↔
      (log.current, symbol.name) ∉ log.places ∧
        next = { log with
          entries := log.entries ++ [⟨log.current, symbol.name, log.stamp symbol⟩] } := by
  rw [← lookupIn_eq_none_iff, insert]
  cases log.lookupIn log.current symbol.name <;> simp [eq_comm]

theorem insert_eq_error_iff {clash : Redeclaration} :
    log.insert symbol = .error clash ↔
      ∃ existing, log.lookupIn log.current symbol.name = some existing ∧
        clash = ⟨symbol.name, log.current, existing.declaredAt, symbol.declaredAt⟩ := by
  rw [insert]
  cases log.lookupIn log.current symbol.name <;> simp [eq_comm]

theorem scopes_enter (log : Log) (scope : String) :
    (log.enter scope).scopes =
      if scope ∈ log.scopes then log.scopes else log.scopes ++ [scope] := by
  unfold enter
  split <;> simp_all [scopes]

/-- The current scope is the first one that a search asks. -/
theorem exists_active_eq_cons (log : Log) : ∃ outer, log.active = log.current :: outer := by
  unfold active current
  cases log.entered with
  | nil => exact ⟨[], rfl⟩
  | cons scope outer => exact ⟨outer ++ [globalScope], rfl⟩

theorem current_mem_active (log : Log) : log.current ∈ log.active := by
  obtain ⟨outer, isActive⟩ := log.exists_active_eq_cons
  rw [isActive]
  exact List.mem_cons_self ..

section Modify

variable (log : Log) (name : String) (change : Symbol → Symbol)

theorem modify_entered : (log.modify name change).entered = log.entered := by
  unfold modify
  cases log.scopeOf? name <;> rfl

theorem modify_made : (log.modify name change).made = log.made := by
  unfold modify
  cases log.scopeOf? name <;> rfl

theorem scopes_modify : (log.modify name change).scopes = log.scopes := by
  rw [scopes, modify_made, scopes]

theorem active_modify : (log.modify name change).active = log.active := by
  rw [active, modify_entered, active]

/-- A change of a symbol is not seen by a view of entries that does not depend on what changes. -/
theorem map_entries_modify {View : Type} {view : Entry → View}
    (unseen : ∀ entry : Entry, view { entry with symbol := change entry.symbol } = view entry) :
    (log.modify name change).entries.map view = log.entries.map view := by
  unfold modify
  cases log.scopeOf? name with
  | none => rfl
  | some scope =>
      rw [List.map_map]
      apply List.map_congr_left
      intro entry _
      rw [Function.comp_apply]
      split
      · exact unseen entry
      · rfl

theorem places_modify : (log.modify name change).places = log.places :=
  log.map_entries_modify name change fun _ => rfl

theorem map_symbols_modify {View : Type} {view : Symbol → View}
    (unseen : ∀ symbol, view (change symbol) = view symbol) :
    (log.modify name change).symbols.map view = log.symbols.map view := by
  rw [symbols, List.map_map, symbols, List.map_map]
  exact log.map_entries_modify name change fun entry => unseen entry.symbol

end Modify

/-! ### What every operation keeps -/

/-- No scope is made twice and no name is declared twice in a scope, all that is active or has
declarations has been made, and each symbol has its place in the log as its order. -/
structure WellFormed (log : Log) : Prop where
  scopes : log.scopes.Nodup
  active : ∀ scope ∈ log.active, scope ∈ log.scopes
  entries : ∀ entry ∈ log.entries, entry.scope ∈ log.scopes
  places : log.places.Nodup
  orders : log.symbols.map Symbol.insertionOrder = List.range log.size

namespace WellFormed

theorem start : Log.start.WellFormed where
  scopes := List.pairwise_singleton _ _
  active := fun _ member => member
  entries := nofun
  places := List.nodup_nil
  orders := rfl

theorem symbols_sorted (wellFormed : log.WellFormed) :
    log.symbols.Pairwise fun left right =>
      decide (left.insertionOrder ≤ right.insertionOrder) = true := by
  have sorted : (log.symbols.map Symbol.insertionOrder).Pairwise (· < ·) :=
    wellFormed.orders ▸ List.pairwise_lt_range
  refine (List.pairwise_map.1 sorted).imp ?_
  intro left right below
  exact decide_eq_true (Nat.le_of_lt below)

theorem eq_of_order_eq (wellFormed : log.WellFormed) {left right : Symbol}
    (isLeft : left ∈ log.symbols) (isRight : right ∈ log.symbols)
    (same : left.insertionOrder = right.insertionOrder) : left = right := by
  have distinct : (log.symbols.map Symbol.insertionOrder).Nodup :=
    wellFormed.orders ▸ List.nodup_range
  exact List.inj_on_of_nodup_map distinct isLeft isRight same

theorem lookupIn_eq_none_of_not_mem (wellFormed : log.WellFormed) {scope : String}
    (unknown : scope ∉ log.scopes) (name : String) : log.lookupIn scope name = none := by
  rw [lookupIn_eq_none_iff]
  intro member
  obtain ⟨entry, logged, place⟩ := List.mem_map.1 member
  have sameScope : entry.scope = scope := congrArg Prod.fst place
  exact unknown (sameScope ▸ wellFormed.entries entry logged)

theorem enter (wellFormed : log.WellFormed) (scope : String) : (log.enter scope).WellFormed := by
  have kept : ∀ other ∈ log.scopes, other ∈ (log.enter scope).scopes := by
    intro other member
    rw [scopes_enter]
    split
    · exact member
    · exact List.mem_append_left _ member
  refine ⟨?_, ?_, ?_, wellFormed.places, wellFormed.orders⟩
  · rw [scopes_enter]
    split
    · exact wellFormed.scopes
    · rename_i new
      rw [← List.concat_eq_append]
      exact wellFormed.scopes.concat new
  · intro other member
    rcases List.mem_cons.1 member with here | before
    · rw [here, scopes_enter]
      split
      · assumption
      · exact List.mem_append_right _ (List.mem_singleton_self scope)
    · exact kept other (wellFormed.active other before)
  · intro entry member
    exact kept entry.scope (wellFormed.entries entry member)

theorem leave (wellFormed : log.WellFormed) : log.leave.WellFormed := by
  refine ⟨wellFormed.scopes, ?_, wellFormed.entries, wellFormed.places, wellFormed.orders⟩
  intro scope member
  apply wellFormed.active scope
  rcases List.mem_append.1 member with inside | outermost
  · exact List.mem_append_left _ (List.mem_of_mem_tail inside)
  · exact List.mem_append_right _ outermost

theorem insert (wellFormed : log.WellFormed) (accepted : log.insert symbol = .ok next) :
    next.WellFormed := by
  obtain ⟨new, rfl⟩ := insert_eq_ok_iff.1 accepted
  refine ⟨wellFormed.scopes, wellFormed.active, ?_, ?_, ?_⟩
  · intro entry member
    rcases List.mem_append.1 member with before | now
    · exact wellFormed.entries entry before
    · rw [List.mem_singleton.1 now]
      exact wellFormed.active _ log.current_mem_active
  · rw [Log.places, List.map_append, ← Log.places, List.map_singleton, ← List.concat_eq_append]
    exact wellFormed.places.concat new
  · rw [Log.symbols, Log.size, List.map_append, List.map_append, ← Log.symbols,
      wellFormed.orders, List.length_append, List.length_singleton, List.range_succ]
    rfl

theorem modify (wellFormed : log.WellFormed) {change : Symbol → Symbol}
    (keepsOrder : ∀ symbol, (change symbol).insertionOrder = symbol.insertionOrder)
    (name : String) : (log.modify name change).WellFormed := by
  have sameScopes : (log.modify name change).entries.map Entry.scope =
      log.entries.map Entry.scope := log.map_entries_modify name change fun _ => rfl
  refine ⟨?_, ?_, ?_, ?_, ?_⟩
  · rw [scopes_modify]
    exact wellFormed.scopes
  · rw [active_modify, scopes_modify]
    exact wellFormed.active
  · intro entry member
    have listed := List.mem_map_of_mem (f := Entry.scope) member
    rw [sameScopes] at listed
    obtain ⟨before, logged, same⟩ := List.mem_map.1 listed
    rw [scopes_modify, ← same]
    exact wellFormed.entries before logged
  · rw [places_modify]
    exact wellFormed.places
  · have sameSize : (log.modify name change).size = log.size := by
      have lengths := congrArg List.length sameScopes
      rwa [List.length_map, List.length_map] at lengths
    rw [map_symbols_modify log name change keepsOrder, sameSize]
    exact wellFormed.orders

end WellFormed

end Log

end MiddleEnd
