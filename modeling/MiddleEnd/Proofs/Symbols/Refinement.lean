import Mathlib.Data.List.Forall2
import MiddleEnd.Proofs.Symbols.Log

/-!
Contract: a table acts as its log does.

`Table.Refines` ties the parts of a table to a log. The arena lists the scopes of the log, each
with the entries that are logged for it. Names and ids are in bijection: a name has an id exactly
if the scope of that id has the name. The ids on the stack are those of the active scopes, and the
counter is the length of the log. So the three ways in which a table searches, by the ids on the
stack, by the map of ids and by the names of scopes, find what the log has, and sorting the symbols
of all scopes by their orders gives the log back. Each operation leads from a table and its log to a
table and its log.

Owns: the refinement relation, the views and searches under it, and one lemma for each operation.
Does not own: whole runs (`MiddleEnd.Proofs.Symbols.Runs`).
-/

namespace MiddleEnd

namespace Log

/-- The symbols that are logged for a scope, under their keys. -/
def within (log : Log) (scope : String) : List (String × Symbol) :=
  (log.entries.filter (·.scope == scope)).map fun entry => (entry.key, entry.symbol)

/-- The scope of a name with all that is logged for it. -/
def scopeNamed (log : Log) (name : String) : Scope := ⟨name, log.within name⟩

theorem get?_scopeNamed (log : Log) (scope name : String) :
    (log.scopeNamed scope).get? name = log.lookupIn scope name := by
  show (log.within scope).lookup name = log.lookupIn scope name
  unfold within lookupIn
  induction log.entries with
  | nil => rfl
  | cons entry rest inductionHypothesis =>
      rw [List.find?_cons]
      by_cases here : entry.scope = scope
      · rw [List.filter_cons_of_pos (by simp [here]), List.map_cons, List.lookup_cons,
          inductionHypothesis, Entry.isFor, here, BEq.rfl, Bool.true_and, BEq.comm]
        cases entry.key == name <;> rfl
      · rw [List.filter_cons_of_neg (by simp [here]), inductionHypothesis, Entry.isFor,
          beq_false_of_ne here, Bool.false_and]

theorem WellFormed.scopeNamed_of_not_mem {log : Log} (wellFormed : log.WellFormed)
    {scope : String} (unknown : scope ∉ log.scopes) : log.scopeNamed scope = { name := scope } := by
  have nothing : log.entries.filter (·.scope == scope) = [] := by
    rw [List.filter_eq_nil_iff]
    intro entry member here
    exact unknown (beq_iff_eq.1 here ▸ wellFormed.entries entry member)
  rw [scopeNamed, within, nothing, List.map_nil]

/-- A new entry belongs to its own scope, behind all others. -/
theorem within_concat (log : Log) (entry : Entry) (scope : String) :
    within { log with entries := log.entries ++ [entry] } scope =
      log.within scope ++ if entry.scope = scope then [(entry.key, entry.symbol)] else [] := by
  rw [within, List.filter_append, List.map_append, ← within]
  split <;> simp_all

/-- A change of the entries for one place is a change in one scope. -/
theorem within_map_change (log : Log) (place name scope : String) (change : Symbol → Symbol) :
    within { log with
        entries := log.entries.map fun entry =>
          if entry.isFor place name then { entry with symbol := change entry.symbol }
          else entry } scope =
      if scope = place then
        (log.within scope).map fun (key, symbol) =>
          (key, if key == name then change symbol else symbol)
      else log.within scope := by
  have sameScope : ∀ entry : Entry,
      ((if entry.isFor place name then { entry with symbol := change entry.symbol }
        else entry).scope == scope) = (entry.scope == scope) := by
    intro entry
    split <;> rfl
  unfold within
  rw [List.filter_map, Function.comp_def]
  simp only [sameScope, List.map_map]
  split
  · rename_i here
    apply List.map_congr_left
    intro entry member
    have inScope : entry.scope = place := by
      rw [← here]
      exact beq_iff_eq.1 (List.mem_filter.1 member).2
    simp only [Function.comp_apply, Entry.isFor, inScope, BEq.rfl, Bool.true_and]
    split <;> rfl
  · rename_i elsewhere
    apply List.map_congr_left
    intro entry member
    have notInScope : entry.scope ≠ place := by
      rw [beq_iff_eq.1 (List.mem_filter.1 member).2]
      exact elsewhere
    simp only [Function.comp_apply, Entry.isFor, beq_false_of_ne notInScope, Bool.false_and]
    rfl

end Log

namespace Table

/-- The parts of a table store a log. -/
structure Refines (table : Table) (log : Log) : Prop where
  wellFormed : log.WellFormed
  arena : table.arena = log.scopes.map log.scopeNamed
  ids : ∀ (name : String) (id : Nat),
    table.ids.lookup name = some id ↔ log.scopes[id]? = some name
  stack : List.Forall₂ (fun id name => log.scopes[id]? = some name) table.stack log.active
  global : table.global = 0
  nextOrder : table.nextOrder = log.size

/-! ### Lists of ids and lists of names -/

section Related

variable {Id Name Result : Type} {relation : Id → Name → Prop} {ids : List Id}
  {names : List Name}

theorem findSome?_eq_of_forall₂ (related : List.Forall₂ relation ids names)
    {byId : Id → Option Result} {byName : Name → Option Result}
    (agree : ∀ id name, relation id name → byId id = byName name) :
    ids.findSome? byId = names.findSome? byName := by
  induction related with
  | nil => rfl
  | cons here _ inductionHypothesis =>
      rw [List.findSome?_cons, List.findSome?_cons, agree _ _ here, inductionHypothesis]

theorem forall₂_dropWhile (related : List.Forall₂ relation ids names) {byId : Id → Bool}
    {byName : Name → Bool} (agree : ∀ id name, relation id name → byId id = byName name) :
    List.Forall₂ relation (ids.dropWhile byId) (names.dropWhile byName) := by
  induction related with
  | nil => exact .nil
  | cons here others inductionHypothesis =>
      rw [List.dropWhile_cons, List.dropWhile_cons, agree _ _ here]
      split
      · exact inductionHypothesis
      · exact .cons here others

theorem find?_of_forall₂ (related : List.Forall₂ relation ids names) {byId : Id → Bool}
    {byName : Name → Bool} (agree : ∀ id name, relation id name → byId id = byName name) :
    (ids.find? byId = none ∧ names.find? byName = none) ∨
      ∃ id name, ids.find? byId = some id ∧ names.find? byName = some name ∧
        relation id name := by
  induction related with
  | nil => exact Or.inl ⟨rfl, rfl⟩
  | cons here _ inductionHypothesis =>
      rw [List.find?_cons, List.find?_cons, agree _ _ here]
      split
      · exact Or.inr ⟨_, _, rfl, rfl, here⟩
      · exact inductionHypothesis

end Related

namespace Refines

variable {table : Table} {log : Log} (refines : table.Refines log)

include refines

/-! ### Views -/

theorem scopeAt {id : Nat} {name : String} (here : log.scopes[id]? = some name) :
    table.scopeAt id = log.scopeNamed name := by
  rw [Table.scopeAt, List.getD_eq_getElem?_getD, refines.arena, List.getElem?_map, here]
  rfl

theorem name_scopeAt {id : Nat} {name : String} (here : log.scopes[id]? = some name) :
    (table.scopeAt id).name = name := by
  rw [refines.scopeAt here]
  rfl

theorem get?_scopeAt {id : Nat} {scope : String} (here : log.scopes[id]? = some scope)
    (name : String) : (table.scopeAt id).get? name = log.lookupIn scope name := by
  rw [refines.scopeAt here, log.get?_scopeNamed]

theorem length_arena : table.arena.length = log.scopes.length := by
  rw [refines.arena, List.length_map]

/-- No id on the stack is outside the arena. -/
theorem lt_length_arena : ∀ id ∈ table.stack, id < table.arena.length := by
  have inside : List.Forall₂ (fun id name => id < table.arena.length ∧ log.scopes[id]? = some name)
      table.stack log.active := by
    refine refines.stack.imp fun id name here => ⟨?_, here⟩
    rw [refines.length_arena]
    exact (List.getElem?_eq_some_iff.1 here).1
  exact ((List.forall₂_and_left _ _).1 inside).1

theorem scopes : table.scopes = log.scopes := by
  rw [Table.scopes, refines.arena, List.map_map]
  exact List.map_id _

theorem active : table.active = log.active := by
  have names : List.Forall₂ Eq (table.stack.map fun id => (table.scopeAt id).name) log.active :=
    List.forall₂_map_left_iff.2 (refines.stack.imp fun _ _ here => refines.name_scopeAt here)
  rw [List.forall₂_eq_eq_eq] at names
  exact names

theorem size : table.size = log.size := refines.nextOrder

/-- The id of the current scope is on top of the stack. -/
theorem currentId : log.scopes[table.currentId]? = some log.current := by
  have related := refines.stack
  obtain ⟨outer, isActive⟩ := log.exists_active_eq_cons
  rw [isActive, List.forall₂_cons_right_iff] at related
  obtain ⟨id, rest, here, _, stacked⟩ := related
  rw [Table.currentId, stacked]
  exact here

theorem current : table.current = log.current := refines.name_scopeAt refines.currentId

theorem stamp (symbol : Symbol) : table.stamp symbol = log.stamp symbol := by
  rw [Table.stamp, refines.current, refines.nextOrder]
  rfl

theorem globalId : log.scopes[table.global]? = some globalScope := by
  rw [refines.global]
  rfl

/-- A name without an id has no scope. -/
theorem not_mem_of_lookup_eq_none {scope : String} (found : table.ids.lookup scope = none) :
    scope ∉ log.scopes := by
  intro known
  obtain ⟨id, here⟩ := List.mem_iff_getElem?.1 known
  rw [(refines.ids scope id).2 here] at found
  cases found

/-! ### Searches -/

theorem lookupIn : table.lookupIn = log.lookupIn := by
  funext scope name
  rw [Table.lookupIn]
  cases found : table.ids.lookup scope with
  | some id => exact refines.get?_scopeAt ((refines.ids scope id).1 found) name
  | none =>
      have unknown := refines.not_mem_of_lookup_eq_none found
      exact (refines.wellFormed.lookupIn_eq_none_of_not_mem unknown name).symm

theorem lookup : table.lookup = log.lookup := by
  funext name
  exact findSome?_eq_of_forall₂ refines.stack fun _ _ here => refines.get?_scopeAt here name

theorem lookupFrom : table.lookupFrom = log.lookupFrom := by
  funext origin name
  have sameTest : ∀ id scope, log.scopes[id]? = some scope →
      ((table.scopeAt id).name != origin) = (scope != origin) := by
    intro id scope here
    rw [refines.name_scopeAt here]
  have outwards := forall₂_dropWhile refines.stack sameTest
  rw [Table.lookupFrom, Log.lookupFrom, refines.get?_scopeAt refines.globalId,
    findSome?_eq_of_forall₂ outwards fun _ _ here => refines.get?_scopeAt here name]

/-! ### The symbols of all scopes -/

omit refines in
/-- Entries taken scope by scope are the entries in another order. -/
theorem flatMap_filter_perm {scopes : List String} (distinct : scopes.Nodup)
    {entries : List Entry} (known : ∀ entry ∈ entries, entry.scope ∈ scopes) :
    (scopes.flatMap fun scope => entries.filter (·.scope == scope)).Perm entries := by
  induction scopes generalizing entries with
  | nil =>
      have none : entries = [] := List.eq_nil_iff_forall_not_mem.2 fun entry member =>
        List.not_mem_nil (known entry member)
      rw [none]
      exact .refl _
  | cons scope rest inductionHypothesis =>
      obtain ⟨new, distinctRest⟩ := List.nodup_cons.1 distinct
      let others := entries.filter fun entry => !(entry.scope == scope)
      have inRest : ∀ entry ∈ others, entry.scope ∈ rest := by
        intro entry member
        obtain ⟨logged, elsewhere⟩ := List.mem_filter.1 member
        rcases List.mem_cons.1 (known entry logged) with here | later
        · simp [here] at elsewhere
        · exact later
      have sameRest : (rest.flatMap fun other => entries.filter (·.scope == other)) =
          rest.flatMap fun other => others.filter (·.scope == other) := by
        apply List.flatMap_congr
        intro other member
        rw [List.filter_filter]
        apply List.filter_congr
        intro entry _
        by_cases here : entry.scope = other
        · have elsewhere : other ≠ scope := fun same => new (same ▸ member)
          simp [here, elsewhere]
        · simp [here]
      rw [List.flatMap_cons, sameRest]
      exact ((inductionHypothesis distinctRest inRest).append_left _).trans
        (List.filter_append_perm _ entries)

theorem values_perm : (table.arena.flatMap Scope.values).Perm log.symbols := by
  have byScope : table.arena.flatMap Scope.values =
      (log.scopes.flatMap fun scope => log.entries.filter (·.scope == scope)).map Entry.symbol := by
    rw [refines.arena, List.flatMap_map, List.map_flatMap]
    apply List.flatMap_congr
    intro scope _
    show (log.within scope).map Prod.snd = _
    rw [Log.within, List.map_map]
    rfl
  rw [byScope]
  exact (flatMap_filter_perm refines.wellFormed.scopes refines.wellFormed.entries).map _

/-- Sorting by the orders, of which no two are equal, restores the log. -/
theorem symbols : table.symbols = log.symbols := by
  have permuted : table.symbols.Perm log.symbols :=
    (List.mergeSort_perm ..).trans refines.values_perm
  have sorted : table.symbols.Pairwise fun left right =>
      decide (left.insertionOrder ≤ right.insertionOrder) = true := by
    apply List.pairwise_mergeSort
    · intro first second third
      simp only [decide_eq_true_eq]
      exact Nat.le_trans
    · intro left right
      simp only [Bool.or_eq_true, decide_eq_true_eq]
      exact Nat.le_total _ _
  refine permuted.eq_of_pairwise ?_ sorted refines.wellFormed.symbols_sorted
  intro left right isLeft isRight below above
  rw [decide_eq_true_eq] at below above
  exact refines.wellFormed.eq_of_order_eq (permuted.mem_iff.1 isLeft) isRight
    (Nat.le_antisymm below above)

/-! ### Operations -/

omit refines in
/-- Changing the scope at one index of the arena is changing what belongs to its name. -/
theorem modify_map_of_nodup {scopes : List String} (distinct : scopes.Nodup) {id : Nat}
    {name : String} (here : scopes[id]? = some name) {before after : String → Scope}
    {change : Scope → Scope} (changed : change (before name) = after name)
    (kept : ∀ other, other ≠ name → before other = after other) :
    (scopes.map before).modify id change = scopes.map after := by
  apply List.ext_getElem?
  intro index
  rw [List.getElem?_modify, List.getElem?_map, List.getElem?_map]
  by_cases same : id = index
  · subst same
    rw [here]
    simp [changed]
  · cases there : scopes[index]? with
    | none => rfl
    | some other =>
        have elsewhere : other ≠ name := by
          rintro rfl
          have inside := (List.getElem?_eq_some_iff.1 here).1
          exact same ((List.getElem?_inj inside distinct).1 (here.trans there.symm))
        simp [same, kept other elsewhere]

omit refines in
/-- A new name gets the next id, and no other name loses its own. -/
theorem ids_concat {ids : List (String × Nat)} {scopes : List String}
    (bijective : ∀ name id, ids.lookup name = some id ↔ scopes[id]? = some name) {scope : String}
    (new : scope ∉ scopes) (name : String) (id : Nat) :
    ((scope, scopes.length) :: ids).lookup name = some id ↔
      (scopes ++ [scope])[id]? = some name := by
  rw [List.lookup_cons]
  by_cases same : name = scope
  · subst same
    rw [BEq.rfl]
    grind
  · rw [beq_false_of_ne same]
    grind

omit refines in
theorem start : Table.start.Refines Log.start where
  wellFormed := .start
  arena := rfl
  ids := by
    have nothing : ∀ (name : String) (id : Nat),
        ([] : List (String × Nat)).lookup name = some id ↔ ([] : List String)[id]? = some name := by
      simp
    exact ids_concat nothing List.not_mem_nil
  stack := .cons rfl .nil
  global := rfl
  nextOrder := rfl

theorem enter (scope : String) : (table.enter scope).Refines (log.enter scope) := by
  have grown := log.scopes_enter scope
  have sameScopes : (log.enter scope).scopeNamed = log.scopeNamed := rfl
  unfold Table.enter
  cases found : table.ids.lookup scope with
  | some id =>
      have here := (refines.ids scope id).1 found
      rw [if_pos (List.mem_of_getElem? here)] at grown
      refine ⟨refines.wellFormed.enter scope, ?_, ?_, ?_, refines.global, refines.nextOrder⟩
      · rw [grown, sameScopes]
        exact refines.arena
      · rw [grown]
        exact refines.ids
      · rw [grown]
        exact .cons here refines.stack
  | none =>
      have new := refines.not_mem_of_lookup_eq_none found
      rw [if_neg new] at grown
      refine ⟨refines.wellFormed.enter scope, ?_, ?_, ?_, refines.global, refines.nextOrder⟩
      · rw [grown, sameScopes, List.map_append, List.map_singleton,
          refines.wellFormed.scopeNamed_of_not_mem new, refines.arena]
      · rw [grown, refines.length_arena]
        exact ids_concat refines.ids new
      · rw [grown, refines.length_arena]
        refine .cons List.getElem?_concat_length (refines.stack.imp ?_)
        intro id name here
        rw [List.getElem?_append_left (List.getElem?_eq_some_iff.1 here).1]
        exact here

/-- The table refuses to leave the global scope exactly if the log has entered no other. -/
theorem leave?_eq_none_iff : table.leave? = none ↔ log.entered = [] := by
  have sameLength := refines.stack.length_eq
  rw [Log.active, List.length_append, List.length_singleton] at sameLength
  rw [leave?, ← List.length_eq_zero_iff, sameLength]
  simp

theorem leave : table.leave.Refines log.leave := by
  rw [Table.leave]
  cases entered : log.entered with
  | nil =>
      have stays : log.leave = log := by rw [Log.leave, entered, List.tail_nil, ← entered]
      rw [refines.leave?_eq_none_iff.2 entered, Option.getD_none, stays]
      exact refines
  | cons scope outer =>
      have related := refines.stack
      rw [Log.active, entered, List.cons_append, List.forall₂_cons_right_iff] at related
      obtain ⟨id, rest, _, outside, stacked⟩ := related
      have long : 1 < table.stack.length := by
        rw [stacked, List.length_cons, outside.length_eq, List.length_append]
        exact Nat.succ_lt_succ (Nat.succ_pos _)
      have left : log.leave.active = outer ++ [globalScope] := by
        rw [Log.leave, Log.active, entered, List.tail_cons]
      rw [leave?, if_pos long, Option.getD_some]
      refine ⟨refines.wellFormed.leave, refines.arena, refines.ids, ?_, refines.global,
        refines.nextOrder⟩
      rw [left, stacked]
      exact outside

theorem insert_eq_error {symbol : Symbol} {clash : Redeclaration}
    (refused : log.insert symbol = .error clash) : table.insert symbol = .error clash := by
  obtain ⟨existing, found, rfl⟩ := Log.insert_eq_error_iff.1 refused
  rw [Table.insert, refines.get?_scopeAt refines.currentId, found, refines.current]

theorem insert {symbol : Symbol} {next : Log} (accepted : log.insert symbol = .ok next) :
    ∃ grown, table.insert symbol = .ok grown ∧ grown.Refines next := by
  obtain ⟨new, isNext⟩ := Log.insert_eq_ok_iff.1 accepted
  have missing := Log.lookupIn_eq_none_iff.2 new
  have free : (table.scopeAt table.currentId).get? symbol.name = none :=
    (refines.get?_scopeAt refines.currentId _).trans missing
  have isGrown : table.insert symbol = .ok { table with
      arena := table.arena.modify table.currentId (·.add symbol.name (table.stamp symbol))
      nextOrder := table.nextOrder + 1 } := by
    rw [Table.insert, free]
  refine ⟨_, isGrown, refines.wellFormed.insert accepted, ?_, ?_, ?_, refines.global, ?_⟩
  · rw [isNext, refines.arena]
    apply modify_map_of_nodup refines.wellFormed.scopes refines.currentId
    · rw [Scope.add, log.get?_scopeNamed, missing, refines.stamp, Log.scopeNamed, Log.scopeNamed,
        Log.within_concat, if_pos rfl]
    · intro other elsewhere
      rw [Log.scopeNamed, Log.scopeNamed, Log.within_concat, if_neg (Ne.symm elsewhere),
        List.append_nil]
  · rw [isNext]
    exact refines.ids
  · rw [isNext]
    exact refines.stack
  · rw [isNext, Log.size, List.length_append, List.length_singleton, refines.nextOrder, Log.size]

theorem insert_eq_error_iff {symbol : Symbol} {clash : Redeclaration} :
    table.insert symbol = .error clash ↔ log.insert symbol = .error clash := by
  refine ⟨?_, refines.insert_eq_error⟩
  intro refused
  cases outcome : log.insert symbol with
  | error other =>
      rw [refines.insert_eq_error outcome] at refused
      cases refused
      rfl
  | ok next =>
      obtain ⟨grown, accepted, _⟩ := refines.insert outcome
      rw [accepted] at refused
      cases refused

theorem modify {change : Symbol → Symbol}
    (keepsOrder : ∀ symbol, (change symbol).insertionOrder = symbol.insertionOrder)
    (name : String) : (table.modify name change).Refines (log.modify name change) := by
  have wellFormed := refines.wellFormed.modify keepsOrder name
  have sameHit : ∀ id scope, log.scopes[id]? = some scope →
      ((table.scopeAt id).get? name).isSome = (log.lookupIn scope name).isSome := by
    intro id scope here
    rw [refines.get?_scopeAt here]
  rcases find?_of_forall₂ refines.stack sameHit with
    ⟨noId, noScope⟩ | ⟨id, scope, isId, isScope, here⟩
  · have stays : log.modify name change = log := by rw [Log.modify, Log.scopeOf?, noScope]
    rw [Table.modify, idOf?, noId, stays]
    exact refines
  · rw [Log.modify, Log.scopeOf?, isScope] at wellFormed ⊢
    rw [Table.modify, idOf?, isId]
    refine ⟨wellFormed, ?_, refines.ids, refines.stack, refines.global, ?_⟩
    · show table.arena.modify id _ = log.scopes.map _
      rw [refines.arena]
      apply modify_map_of_nodup refines.wellFormed.scopes here
      · rw [Scope.modify, Log.scopeNamed, Log.scopeNamed, Log.within_map_change, if_pos rfl]
      · intro other elsewhere
        rw [Log.scopeNamed, Log.scopeNamed, Log.within_map_change, if_neg elsewhere]
    · rw [Log.size, List.length_map]
      exact refines.nextOrder

end Refines

end Table

end MiddleEnd
