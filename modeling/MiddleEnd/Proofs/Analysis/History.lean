import Mathlib.Data.List.Induction
import MiddleEnd.Proofs.Analysis.Events
import MiddleEnd.Proofs.Symbols.Log

/-!
Contract: what a history has to say about its names.

Violations, doubtful reads and the symbols with their flags are closed forms over the events, each
event judged by the events before it. The lemmas say how each of them grows when one event is
added, and how the symbol of a name is found among the logged ones.

Owns: `violations`, `doubtfulReads`, `entries`, `symbols`, and their growth by one event.
Does not own: the analyzer (`MiddleEnd.Proofs.Analysis.Tracking`).
-/

namespace MiddleEnd

/-! ### Judging one event by its past -/

/-- The scoping rule that an event breaks: a name is declared once in a scope, and a used name is
declared before, in the scope of the use or in the global one. -/
def Event.violation? (past : History) : Event → Option SemanticError
  | .declare scope declared =>
      match past.declaration? scope declared.name with
      | some first =>
          some (.redeclaration
            { name := declared.name
              scope
              first := first.position
              second := declared.position })
      | none => none
  | .use _ scope ident =>
      if past.declaration? scope ident.name = none ∧
          past.declaration? globalScope ident.name = none then
        some (.undefinedReference ident.name scope ident.position)
      else
        none

/-- What a use of a kind does to the symbol it stands for. -/
def UseKind.mark : UseKind → Symbol → Symbol
  | .read => Symbol.markUsed
  | .assign => Symbol.markInitialized
  | .call => Symbol.markUsed

theorem UseKind.mark_insertionOrder (kind : UseKind) (symbol : Symbol) :
    (kind.mark symbol).insertionOrder = symbol.insertionOrder := by
  cases kind <;> rfl

/-- Whether an event is a use of a kind that stands for the symbol of a name in a scope. -/
def Event.resolvesTo (past : History) (kind : UseKind) (scope name : String) : Event → Bool
  | .declare _ _ => false
  | .use kind' place ident =>
      kind' = kind ∧ ident.name = name ∧ past.resolve? place name = some scope

namespace History

/-- Whether some use of a kind stands for the symbol of a name in a scope. -/
def uses (history : History) (kind : UseKind) (scope name : String) : Bool :=
  history.pasts.any fun (past, event) => event.resolvesTo past kind scope name

end History

/-- The warning on an event: the first read of a variable that was declared without an initial
value, if nothing has been assigned to it yet. -/
def Event.doubtful? (past : History) : Event → Option Warning
  | .use .read place ident => do
      let scope ← past.resolve? place ident.name
      let declared ← past.declaration? scope ident.name
      if declared.isBare ∧ past.uses .read scope ident.name = false ∧
          past.uses .assign scope ident.name = false then
        some (.uninitialized ident.name scope ident.position)
      else
        none
  | _ => none

/-- A doubtful event is a read, and the warning names the symbol that the read stands for. -/
theorem Event.doubtful?_inversion {past : History} {event : Event} {warning : Warning}
    (doubtful : event.doubtful? past = some warning) :
    ∃ place ident scope, event = .use .read place ident ∧
      past.resolve? place ident.name = some scope ∧
      warning = .uninitialized ident.name scope ident.position := by
  match event, doubtful with
  | .use .read place ident, doubtful =>
      simp only [Event.doubtful?, Option.bind_eq_bind, Option.bind_eq_some_iff] at doubtful
      obtain ⟨scope, resolved, declared, _, checked⟩ := doubtful
      split at checked
      · exact ⟨place, ident, scope, rfl, resolved, (Option.some.inj checked).symm⟩
      · cases checked

/-- What an event declares and where, unless the scope has the name already. -/
def Event.first? (past : History) : Event → Option (String × Declared)
  | .declare scope declared =>
      match past.declaration? scope declared.name with
      | some _ => none
      | none => some (scope, declared)
  | .use _ _ _ => none

namespace History

/-! ### A whole history -/

/-- What a judgement finds, in the order of the events. -/
def collect {Finding : Type} (judge : History → Event → Option Finding) (history : History) :
    List Finding :=
  history.pasts.filterMap fun (past, event) => judge past event

/-- The scoping violations. -/
def violations (history : History) : List SemanticError := history.collect Event.violation?

/-- The reads of variables that have no value yet, one for each variable at most. -/
def doubtfulReads (history : History) : List Warning := history.collect Event.doubtful?

/-- The earliest declaration of each declared name, with its scope. -/
def declarations (history : History) : List (String × Declared) := history.collect Event.first?

/-- The symbol of a declaration after all uses of it. It is initialized if it was declared with a
value or if some assignment stands for it, and used if some read or some call does. -/
def describe (history : History) (order : Nat) (entry : String × Declared) : Symbol :=
  let (scope, declared) := entry
  { declared.symbol with
    scope
    insertionOrder := order
    isInitialized := !declared.isBare || history.uses .assign scope declared.name
    isUsed := history.uses .read scope declared.name || history.uses .call scope declared.name }

/-- The declared symbols, in the order of their earliest declarations. -/
def symbols (history : History) : List Symbol := history.declarations.mapIdx history.describe

/-- The declared symbols that are no functions and that nothing reads or calls. -/
def unused (history : History) : List Warning :=
  (history.symbols.filter fun symbol => symbol.category ≠ .function ∧ symbol.isUsed = false).map
    fun symbol => .unused symbol.name symbol.scope symbol.declaredAt

/-- The number of names that were declared before a name in a scope. -/
def orderOf (history : History) (scope name : String) : Nat :=
  history.declarations.findIdx fun entry => entry.1 = scope ∧ entry.2.name = name

/-- The log of a table that holds the declared symbols. -/
def entries (history : History) : List Entry :=
  history.declarations.mapIdx fun order entry =>
    ⟨entry.1, entry.2.name, history.describe order entry⟩

theorem map_symbol_entries (history : History) :
    history.entries.map Entry.symbol = history.symbols := by
  unfold entries symbols
  apply List.ext_getElem
  · simp
  · intro index _ _
    simp

/-! ### Growth by one event -/

theorem collect_concat {Finding : Type} (judge : History → Event → Option Finding)
    (history : History) (event : Event) :
    collect judge (history ++ [event]) = history.collect judge ++ (judge history event).toList := by
  unfold collect
  rw [pasts_concat, List.filterMap_append]
  cases found : judge history event <;> simp [found]

theorem violations_concat (history : History) (event : Event) :
    violations (history ++ [event]) = history.violations ++ (event.violation? history).toList :=
  collect_concat ..

theorem doubtfulReads_concat (history : History) (event : Event) :
    doubtfulReads (history ++ [event]) =
      history.doubtfulReads ++ (event.doubtful? history).toList :=
  collect_concat ..

theorem declarations_concat (history : History) (event : Event) :
    declarations (history ++ [event]) = history.declarations ++ (event.first? history).toList :=
  collect_concat ..

theorem uses_concat (history : History) (event : Event) (kind : UseKind) (scope name : String) :
    uses (history ++ [event]) kind scope name =
      (history.uses kind scope name || event.resolvesTo history kind scope name) := by
  unfold uses
  rw [pasts_concat, List.any_append]
  simp

/-- Only declared symbols are used. -/
theorem declaration?_isSome_of_uses {history : History} {kind : UseKind} {scope name : String}
    (used : history.uses kind scope name = true) : (history.declaration? scope name).isSome := by
  induction history using List.reverseRecOn with
  | nil => simp [uses, pasts, pastsFrom] at used
  | append_singleton earlier event inductionHypothesis =>
      have declaredBefore : (declaration? earlier scope name).isSome := by
        rw [uses_concat, Bool.or_eq_true] at used
        rcases used with before | now
        · exact inductionHypothesis before
        · cases event with
          | declare _ _ => simp [Event.resolvesTo] at now
          | use _ _ _ =>
              simp only [Event.resolvesTo, decide_eq_true_eq] at now
              exact declaration?_isSome_of_resolve? now.2.2
      rw [declaration?_concat, Option.isSome_or, declaredBefore, Bool.true_or]

theorem declaration?_isSome_of_doubtful? {history : History} {event : Event}
    {scope name : String} {useSite : Position}
    (doubtful : event.doubtful? history = some (.uninitialized name scope useSite)) :
    (history.declaration? scope name).isSome := by
  obtain ⟨place, ident, found, _, resolved, same⟩ := Event.doubtful?_inversion doubtful
  cases same
  exact declaration?_isSome_of_resolve? resolved

/-- A doubtful read is a read. -/
theorem uses_of_mem_doubtfulReads {history : History} {scope name : String} {useSite : Position}
    (member : Warning.uninitialized name scope useSite ∈ history.doubtfulReads) :
    history.uses .read scope name = true := by
  induction history using List.reverseRecOn with
  | nil => simp [doubtfulReads, collect, pasts, pastsFrom] at member
  | append_singleton earlier event inductionHypothesis =>
      rw [doubtfulReads_concat, List.mem_append] at member
      rw [uses_concat, Bool.or_eq_true]
      rcases member with before | now
      · exact Or.inl (inductionHypothesis before)
      · right
        rw [Option.mem_toList] at now
        obtain ⟨place, ident, found, rfl, resolved, same⟩ := Event.doubtful?_inversion now
        cases same
        simp [Event.resolvesTo, resolved]

/-- A variable without an initial value that was read and never assigned had a doubtful read. -/
theorem exists_doubtful_of_read {history : History} {scope name : String} {declared : Declared}
    (isDeclared : history.declaration? scope name = some declared)
    (bare : declared.isBare = true) (read : history.uses .read scope name = true)
    (unassigned : history.uses .assign scope name = false) :
    ∃ useSite, Warning.uninitialized name scope useSite ∈ history.doubtfulReads := by
  induction history using List.reverseRecOn with
  | nil => simp [uses, pasts, pastsFrom] at read
  | append_singleton earlier event inductionHypothesis =>
      rw [uses_concat, Bool.or_eq_false_iff] at unassigned
      rw [uses_concat] at read
      rw [doubtfulReads_concat]
      by_cases readBefore : uses earlier .read scope name = true
      · have declaredBefore :=
          declaration?_of_concat (declaration?_isSome_of_uses readBefore) isDeclared
        obtain ⟨useSite, member⟩ :=
          inductionHypothesis declaredBefore readBefore unassigned.1
        exact ⟨useSite, List.mem_append_left _ member⟩
      · rw [Bool.not_eq_true] at readBefore
        rw [readBefore, Bool.false_or] at read
        cases event with
        | declare _ _ => simp [Event.resolvesTo] at read
        | use kind place ident =>
            simp only [Event.resolvesTo, decide_eq_true_eq] at read
            obtain ⟨rfl, rfl, resolved⟩ := read
            have declaredBefore :=
              declaration?_of_concat (declaration?_isSome_of_resolve? resolved) isDeclared
            refine ⟨ident.position, List.mem_append_right _ ?_⟩
            simp [Event.doubtful?, resolved, declaredBefore, bare, readBefore, unassigned.1]

/-! ### Growth of the log -/

theorem describe_concat_declare (history : History) (place : String) (declared : Declared) :
    describe (history ++ [.declare place declared]) = history.describe := by
  funext order entry
  simp [describe, uses_concat, Event.resolvesTo]

/-- A declaration of a name that the scope has already leaves the log as it is. -/
theorem entries_concat_redeclare {history : History} {scope : String} {declared first : Declared}
    (isDeclared : history.declaration? scope declared.name = some first) :
    entries (history ++ [.declare scope declared]) = history.entries := by
  rw [entries, describe_concat_declare, declarations_concat]
  simp [Event.first?, isDeclared, entries]

/-- A new name is logged with the number of names before it. Its flags are those it was declared
with, since no use before can have stood for it. -/
theorem entries_concat_declare {history : History} {scope : String} {declared : Declared}
    (new : history.declaration? scope declared.name = none) :
    entries (history ++ [.declare scope declared]) =
      history.entries ++
        [⟨scope, declared.name,
          { declared.symbol with
            scope, insertionOrder := history.entries.length }⟩] := by
  have unusedSoFar : ∀ kind, history.uses kind scope declared.name = false := by
    intro kind
    by_contra used
    rw [Bool.not_eq_false] at used
    have isDeclared := declaration?_isSome_of_uses used
    rw [new] at isDeclared
    cases isDeclared
  rw [entries, describe_concat_declare, declarations_concat]
  simp [Event.first?, new, entries, describe, unusedSoFar, List.mapIdx_append,
    Declared.symbol_isInitialized, Declared.symbol_isUsed]

theorem describe_concat_use (history : History) (kind : UseKind) (place : String) (ident : Ident)
    (order : Nat) (entry : String × Declared) :
    describe (history ++ [.use kind place ident]) order entry =
      if history.resolve? place ident.name = some entry.1 ∧ entry.2.name = ident.name then
        kind.mark (history.describe order entry)
      else history.describe order entry := by
  split
  · rename_i resolved
    obtain ⟨resolved, sameName⟩ := resolved
    simp only [describe, uses_concat, Event.resolvesTo, sameName, resolved]
    cases kind <;> simp [UseKind.mark, Symbol.markUsed, Symbol.markInitialized]
  · rename_i elsewhere
    have notHere : ∀ other, Event.resolvesTo history other entry.1 entry.2.name
        (.use kind place ident) = false := by
      intro other
      simp only [Event.resolvesTo, decide_eq_false_iff_not]
      rintro ⟨_, sameName, resolved⟩
      rw [← sameName] at resolved
      exact elsewhere ⟨resolved, sameName.symm⟩
    simp [describe, uses_concat, notHere]

/-- A use marks the symbol that it stands for, if there is one, and no other. -/
theorem entries_concat_use (history : History) (kind : UseKind) (place : String) (ident : Ident) :
    entries (history ++ [.use kind place ident]) =
      history.entries.map fun entry =>
        if history.resolve? place ident.name = some entry.scope ∧ entry.key = ident.name then
          { entry with symbol := kind.mark entry.symbol }
        else entry := by
  have sameDeclarations :
      declarations (history ++ [.use kind place ident]) = history.declarations := by
    rw [declarations_concat]
    simp [Event.first?]
  unfold entries
  rw [sameDeclarations]
  apply List.ext_getElem
  · simp
  · intro index _ _
    simp only [List.getElem_mapIdx, List.getElem_map, describe_concat_use]
    split <;> rfl

theorem entries_concat_unresolved {history : History} {kind : UseKind} {place : String}
    {ident : Ident} (unresolved : history.resolve? place ident.name = none) :
    entries (history ++ [.use kind place ident]) = history.entries := by
  rw [entries_concat_use, unresolved]
  simp

theorem entries_concat_resolved {history : History} {kind : UseKind} {place scope : String}
    {ident : Ident} (resolved : history.resolve? place ident.name = some scope) :
    entries (history ++ [.use kind place ident]) =
      history.entries.map fun entry =>
        if entry.isFor scope ident.name then { entry with symbol := kind.mark entry.symbol }
        else entry := by
  rw [entries_concat_use, resolved]
  apply List.map_congr_left
  intro entry _
  have same : (some scope = some entry.scope ∧ entry.key = ident.name) ↔
      entry.isFor scope ident.name = true := by
    rw [Entry.isFor_iff, Option.some_inj, eq_comm]
  simp only [same]

/-! ### Finding a symbol in the log -/

theorem find?_declarations (history : History) (scope name : String) :
    history.declarations.find? (fun entry => entry.1 = scope ∧ entry.2.name = name) =
      (history.declaration? scope name).map (scope, ·) := by
  induction history using List.reverseRecOn with
  | nil => rfl
  | append_singleton earlier event inductionHypothesis =>
      rw [declarations_concat, List.find?_append, declaration?_concat, inductionHypothesis]
      cases declaredBefore : declaration? earlier scope name with
      | some declared => rfl
      | none =>
          cases event with
          | use _ _ _ => rfl
          | declare place declared =>
              by_cases here : place = scope ∧ declared.name = name
              · obtain ⟨rfl, rfl⟩ := here
                simp [Event.first?, Event.declares?, declaredBefore]
              · have elsewhere : [(place, declared)].find?
                    (fun entry => entry.1 = scope ∧ entry.2.name = name) = none := by
                  simpa using here
                simp only [Event.first?, Event.declares?, here]
                split
                · rfl
                · exact elsewhere

private theorem find?_mapIdx {Item Result : Type} (make : Nat → Item → Result)
    (isResult : Result → Bool) (isItem : Item → Bool)
    (same : ∀ index item, isResult (make index item) = isItem item) (items : List Item) :
    (items.mapIdx make).find? isResult =
      (items.find? isItem).map (make (items.findIdx isItem)) := by
  induction items generalizing make with
  | nil => rfl
  | cons head tail inductionHypothesis =>
      have shifted := inductionHypothesis (fun index => make (index + 1)) fun index =>
        same (index + 1)
      rw [List.mapIdx_cons, List.find?_cons, List.find?_cons, List.findIdx_cons, same, shifted]
      cases isItem head <;> rfl

theorem find?_entries (history : History) (scope name : String) :
    history.entries.find? (·.isFor scope name) =
      (history.declaration? scope name).map fun declared =>
        { scope
          key := declared.name
          symbol := history.describe (history.orderOf scope name) (scope, declared) } := by
  have found := find?_mapIdx
    (fun order entry => (⟨entry.1, entry.2.name, history.describe order entry⟩ : Entry))
    (·.isFor scope name)
    (fun entry => decide (entry.1 = scope ∧ entry.2.name = name))
    (by
      intro index item
      rw [Bool.eq_iff_iff]
      simp [Entry.isFor])
    history.declarations
  rw [entries, found, find?_declarations, Option.map_map]
  rfl

/-! ### Orders -/

theorem exists_of_declared {history : History} {scope name : String}
    (isDeclared : (history.declaration? scope name).isSome) :
    ∃ entry ∈ history.declarations, decide (entry.1 = scope ∧ entry.2.name = name) = true := by
  rw [← List.find?_isSome, find?_declarations, Option.isSome_map]
  exact isDeclared

/-- Later events leave the order of a declared name as it is. -/
theorem orderOf_concat {history : History} {scope name : String}
    (isDeclared : (history.declaration? scope name).isSome) (event : Event) :
    orderOf (history ++ [event]) scope name = history.orderOf scope name := by
  rw [orderOf, declarations_concat, List.findIdx_append,
    if_pos (List.findIdx_lt_length_of_exists (exists_of_declared isDeclared))]
  rfl

/-- The declaration of a name stands at its order. -/
theorem getElem?_orderOf {history : History} {scope name : String}
    (isDeclared : (history.declaration? scope name).isSome) :
    ∃ declared, history.declarations[history.orderOf scope name]? = some (scope, declared) ∧
      declared.name = name := by
  have inside := List.findIdx_lt_length_of_exists (exists_of_declared isDeclared)
  obtain ⟨isScope, isName⟩ := of_decide_eq_true (List.findIdx_getElem (w := inside))
  exact ⟨_, (List.getElem?_eq_getElem inside).trans (congrArg some (Prod.ext isScope rfl)), isName⟩

/-- No two declared names have one order. -/
theorem orderOf_inj {history : History} {scope name place key : String}
    (isDeclared : (history.declaration? scope name).isSome)
    (isOther : (history.declaration? place key).isSome)
    (same : history.orderOf scope name = history.orderOf place key) :
    scope = place ∧ name = key := by
  obtain ⟨declared, here, isName⟩ := getElem?_orderOf isDeclared
  obtain ⟨other, there, isKey⟩ := getElem?_orderOf isOther
  rw [same, there] at here
  cases here
  exact ⟨rfl, isName.symm.trans isKey⟩

/-- An order is doubtful if the symbol that has it was read without a value. -/
def Doubts (history : History) (order : Nat) : Prop :=
  ∃ scope name useSite, Warning.uninitialized name scope useSite ∈ history.doubtfulReads ∧
    history.orderOf scope name = order

theorem declaration?_isSome_of_mem_doubtfulReads {history : History} {scope name : String}
    {useSite : Position}
    (member : Warning.uninitialized name scope useSite ∈ history.doubtfulReads) :
    (history.declaration? scope name).isSome :=
  declaration?_isSome_of_uses (uses_of_mem_doubtfulReads member)

/-- Orders are unique, so that of a declared name tells whether that name was read without a
value. -/
theorem doubts_orderOf_iff {history : History} {scope name : String}
    (isDeclared : (history.declaration? scope name).isSome) :
    history.Doubts (history.orderOf scope name) ↔
      ∃ useSite, Warning.uninitialized name scope useSite ∈ history.doubtfulReads := by
  constructor
  · rintro ⟨place, key, useSite, member, same⟩
    obtain ⟨rfl, rfl⟩ :=
      orderOf_inj (declaration?_isSome_of_mem_doubtfulReads member) isDeclared same
    exact ⟨useSite, member⟩
  · rintro ⟨useSite, member⟩
    exact ⟨scope, name, useSite, member, rfl⟩

/-- One event adds the order of the symbol that it reads without a value, if it does. -/
theorem doubts_concat (history : History) (event : Event) (order : Nat) :
    Doubts (history ++ [event]) order ↔
      history.Doubts order ∨ ∃ scope name useSite,
        event.doubtful? history = some (.uninitialized name scope useSite) ∧
          history.orderOf scope name = order := by
  constructor
  · rintro ⟨scope, name, useSite, member, isOrder⟩
    rw [doubtfulReads_concat, List.mem_append, Option.mem_toList] at member
    rcases member with before | now
    · rw [orderOf_concat (declaration?_isSome_of_mem_doubtfulReads before)] at isOrder
      exact Or.inl ⟨scope, name, useSite, before, isOrder⟩
    · rw [orderOf_concat (declaration?_isSome_of_doubtful? now)] at isOrder
      exact Or.inr ⟨scope, name, useSite, now, isOrder⟩
  · rintro (⟨scope, name, useSite, before, isOrder⟩ | ⟨scope, name, useSite, now, isOrder⟩)
    · refine ⟨scope, name, useSite, ?_, ?_⟩
      · rw [doubtfulReads_concat]
        exact List.mem_append_left _ before
      · rw [orderOf_concat (declaration?_isSome_of_mem_doubtfulReads before)]
        exact isOrder
    · refine ⟨scope, name, useSite, ?_, ?_⟩
      · rw [doubtfulReads_concat]
        exact List.mem_append_right _ (Option.mem_toList.2 now)
      · rw [orderOf_concat (declaration?_isSome_of_doubtful? now)]
        exact isOrder

end History

end MiddleEnd
