import MiddleEnd.Proofs.Compilation.Acceptance
import MiddleEnd.Tree.Shorthand

/-!
Contract: which names a function of an accepted program can use.

A use is accepted if an earlier event declares its name, in the function or in the global scope. The
events of a function declare the function itself in the global scope and everything else in the scope
of the function's own name. Function names are unique, so the scope of a name holds the locals of one
function only, and the global scope holds functions only. One name breaks this rule: a function that
is called like the global scope has its locals there, in sight of every function after it
(`used_name_visible`, `global_locals_leak`).

Owns: the names that a function uses and declares, and where the declaration of a used name is found.
Does not own: what the analyzer reports (`MiddleEnd.Proofs.Analysis.Diagnostics`).
-/

namespace MiddleEnd

/-! ### The scope and the name of an event -/

namespace Event

def scope : Event → String
  | .declare scope _ => scope
  | .use _ scope _ => scope

def name : Event → String
  | .declare _ declared => declared.name
  | .use _ _ ident => ident.name

def usedName? : Event → Option String
  | .declare _ _ => none
  | .use _ _ ident => some ident.name

def declaredName? : Event → Option String
  | .declare _ declared => some declared.name
  | .use _ _ _ => none

end Event

namespace History

/-- All events of a history are in one scope. -/
def Within (scope : String) (history : History) : Prop := ∀ event ∈ history, event.scope = scope

theorem Within.nil (scope : String) : Within scope [] := nofun

theorem Within.cons {scope : String} {event : Event} {rest : History} (here : event.scope = scope)
    (later : Within scope rest) : Within scope (event :: rest) :=
  List.forall_mem_cons.2 ⟨here, later⟩

theorem Within.append {scope : String} {front back : History} (first : Within scope front)
    (second : Within scope back) : Within scope (front ++ back) :=
  List.forall_mem_append.2 ⟨first, second⟩

end History

mutual

theorem Expr.within_events (scope : String) : ∀ expr : Expr,
    History.Within scope (expr.events scope)
  | .binary _ left right => (within_events scope left).append (within_events scope right)
  | .ident _ => .cons rfl (.nil scope)
  | .int _ => .nil scope
  | .paren inner => within_events scope inner
  | .call _ args => .cons rfl (within_eventsAll scope args)

theorem Expr.within_eventsAll (scope : String) : ∀ exprs : List Expr,
    History.Within scope (Expr.eventsAll scope exprs)
  | [] => .nil scope
  | expr :: rest => (within_events scope expr).append (within_eventsAll scope rest)

end

theorem Expr.within_option (scope : String) (value : Option Expr) :
    History.Within scope (value.toList.flatMap (Expr.events scope)) := by
  cases value with
  | none => exact .nil scope
  | some expr =>
      rw [Option.toList_some, List.flatMap_singleton]
      exact expr.within_events scope

theorem Declaration.within_events (scope : String) (declaration : Declaration) :
    History.Within scope (declaration.events scope) :=
  (Expr.within_option scope declaration.init).append (.cons rfl (.nil scope))

theorem Assignment.within_events (scope : String) (assignment : Assignment) :
    History.Within scope (assignment.events scope) :=
  (assignment.value.within_events scope).append (.cons rfl (.nil scope))

theorem LoopInit.within_events (scope : String) (init : LoopInit) :
    History.Within scope (init.events scope) := by
  cases init with
  | declare declaration => exact declaration.within_events scope
  | assign assignment => exact assignment.within_events scope

mutual

theorem Stmt.within_events (scope : String) : ∀ stmt : Stmt,
    History.Within scope (stmt.events scope)
  | .declare declaration => declaration.within_events scope
  | .assign assignment => assignment.within_events scope
  | .branch cond thenBlock none =>
      (cond.within_events scope).append (within_eventsAll scope thenBlock)
  | .branch cond thenBlock (some elseBlock) =>
      ((cond.within_events scope).append (within_eventsAll scope thenBlock)).append
        (within_eventsAll scope elseBlock)
  | .whileLoop cond body => (cond.within_events scope).append (within_eventsAll scope body)
  | .forLoop init cond update body =>
      (((init.within_events scope).append (cond.within_events scope)).append
        (within_eventsAll scope body)).append (update.within_events scope)
  | .ret value => Expr.within_option scope value
  | .call _ args => .cons rfl (Expr.within_eventsAll scope args)
  | .block stmts => within_eventsAll scope stmts

theorem Stmt.within_eventsAll (scope : String) : ∀ stmts : List Stmt,
    History.Within scope (Stmt.eventsAll scope stmts)
  | [] => .nil scope
  | stmt :: rest => (within_events scope stmt).append (within_eventsAll scope rest)

end

/-! ### The names of a function -/

namespace FunctionDecl

/-- What the body of a function does with names: each declaration, read, assignment and call. -/
def bodyEvents (function : FunctionDecl) : History :=
  Stmt.eventsAll function.name.name function.body

/-- The names that the body reads, assigns or calls. -/
def usedNames (function : FunctionDecl) : List String :=
  function.bodyEvents.filterMap Event.usedName?

/-- The names of the parameters and of the variables that the body declares. -/
def localNames (function : FunctionDecl) : List String :=
  function.params.map (·.name.name) ++ function.bodyEvents.filterMap Event.declaredName?

/-- A function declares itself in the global scope, and its locals in the scope of its name. -/
theorem declare_mem_events {function : FunctionDecl} {place : String} {declared : Declared}
    (member : .declare place declared ∈ function.events) :
    (place = globalScope ∧ declared.name = function.name.name) ∨
      (place = function.name.name ∧ declared.name ∈ function.localNames) := by
  rcases List.mem_cons.1 member with isFunction | isLocal
  · cases isFunction
    exact Or.inl ⟨rfl, rfl⟩
  · right
    rcases List.mem_append.1 isLocal with isParameter | inBody
    · obtain ⟨parameter, present, same⟩ := List.mem_map.1 isParameter
      cases same
      exact ⟨rfl, List.mem_append_left _ (List.mem_map.2 ⟨parameter, present, rfl⟩)⟩
    · refine ⟨Stmt.within_eventsAll function.name.name function.body _ inBody, ?_⟩
      exact List.mem_append_right _ (List.mem_filterMap.2 ⟨_, inBody, rfl⟩)

end FunctionDecl

/-! ### Where a used name is declared -/

namespace History

theorem declaration?_isSome_iff {history : History} {scope name : String} :
    (history.declaration? scope name).isSome ↔
      ∃ declared, .declare scope declared ∈ history ∧ declared.name = name := by
  rw [declaration?, List.findSome?_isSome_iff]
  constructor
  · rintro ⟨event, member, declares⟩
    cases event with
    | declare place declared =>
        by_cases here : place = scope ∧ declared.name = name
        · obtain ⟨rfl, isName⟩ := here
          exact ⟨declared, member, isName⟩
        · simp [Event.declares?, here] at declares
    | use _ _ _ => cases declares
  · rintro ⟨declared, member, isName⟩
    exact ⟨_, member, by simp [Event.declares?, isName]⟩

/-- In a history without violations a used name has been declared before its use. -/
theorem exists_declare_of_use {past rest : History} {kind : UseKind} {scope : String}
    {ident : Ident} (clean : violations (past ++ .use kind scope ident :: rest) = []) :
    ∃ place declared, (place = scope ∨ place = globalScope) ∧
      .declare place declared ∈ past ∧ declared.name = ident.name := by
  have accepted := violation?_eq_none clean
  by_cases own : (past.declaration? scope ident.name).isSome
  · obtain ⟨declared, member, isName⟩ := declaration?_isSome_iff.1 own
    exact ⟨scope, declared, Or.inl rfl, member, isName⟩
  · by_cases shared : (past.declaration? globalScope ident.name).isSome
    · obtain ⟨declared, member, isName⟩ := declaration?_isSome_iff.1 shared
      exact ⟨globalScope, declared, Or.inr rfl, member, isName⟩
    · rw [Option.not_isSome_iff_eq_none] at own shared
      simp [Event.violation?, own, shared] at accepted

end History

namespace Program

variable {program : Program} {front back : List FunctionDecl} {function : FunctionDecl}

theorem violations_of_errors (clean : program.analyze.errors = []) :
    program.events.violations = [] :=
  (Analysis.tracks_program program).errors.symm.trans clean

/-- A name that the body of a function uses is declared by that function or by an earlier one. -/
theorem exists_declare_of_bodyUse (clean : program.events.violations = [])
    (split : program.functions = front ++ function :: back) {kind : UseKind} {scope : String}
    {ident : Ident} (member : .use kind scope ident ∈ function.bodyEvents) :
    ∃ earlier ∈ front ++ [function], ∃ place declared,
      (place = function.name.name ∨ place = globalScope) ∧
        .declare place declared ∈ earlier.events ∧ declared.name = ident.name := by
  have inFunction : scope = function.name.name :=
    Stmt.within_eventsAll function.name.name function.body _ member
  obtain ⟨before, after, body⟩ := List.append_of_mem member
  -- The events up to the use are those of the earlier functions and a first part of this one's.
  let header : History := .declare globalScope (.function function) ::
    function.params.map fun parameter => .declare function.name.name (.parameter parameter)
  have own : function.events = header ++ before ++ .use kind scope ident :: after := by
    rw [List.append_assoc, ← body]
    rfl
  have whole : program.events =
      (front.flatMap FunctionDecl.events ++ (header ++ before)) ++ .use kind scope ident ::
        (after ++ back.flatMap FunctionDecl.events) := by
    rw [events, split, List.flatMap_append, List.flatMap_cons, own]
    simp only [List.append_assoc, List.cons_append]
  rw [whole] at clean
  obtain ⟨place, declared, visible, declares, isName⟩ := History.exists_declare_of_use clean
  rw [inFunction] at visible
  rcases List.mem_append.1 declares with inFront | inOwn
  · obtain ⟨earlier, present, declaresThere⟩ := List.mem_flatMap.1 inFront
    exact ⟨earlier, List.mem_append_left _ present, place, declared, visible, declaresThere,
      isName⟩
  · refine ⟨function, List.mem_append_right _ (List.mem_singleton.2 rfl), place, declared, visible,
      ?_, isName⟩
    rw [own]
    exact List.mem_append_left _ inOwn

/-- Of the functions up to a given one, only that one has its name. -/
theorem eq_of_name_eq (clean : program.events.violations = [])
    (split : program.functions = front ++ function :: back) {earlier : FunctionDecl}
    (present : earlier ∈ front ++ [function])
    (sameName : earlier.name.name = function.name.name) : earlier = function := by
  rcases List.mem_append.1 present with inFront | isLast
  · have distinct := nodup_functionNames clean
    rw [split, List.map_append, List.nodup_append] at distinct
    have different := distinct.2.2 earlier.name.name (List.mem_map_of_mem inFront)
      function.name.name (List.mem_map_of_mem (List.mem_cons_self ..))
    exact absurd sameName different
  · exact List.mem_singleton.1 isLast

end Program

/-- If the analysis of a program reports no errors, then each name that a function reads, assigns or
calls is a local of the function, or the name of a function up to this one, or a local of a function
up to this one that is called like the global scope. -/
theorem used_name_visible (program : Program) (clean : program.analyze.errors = [])
    (front back : List FunctionDecl) (function : FunctionDecl)
    (split : program.functions = front ++ function :: back) (name : String)
    (used : name ∈ function.usedNames) :
    name ∈ function.localNames ∨ (∃ earlier ∈ front ++ [function], earlier.name.name = name) ∨
      ∃ earlier ∈ front ++ [function],
        earlier.name.name = globalScope ∧ name ∈ earlier.localNames := by
  have noViolations := Program.violations_of_errors clean
  obtain ⟨event, member, isUse⟩ := List.mem_filterMap.1 used
  cases event with
  | declare _ _ => cases isUse
  | use kind scope ident =>
      cases isUse
      obtain ⟨earlier, present, place, declared, visible, declares, isName⟩ :=
        Program.exists_declare_of_bodyUse noViolations split member
      rw [← isName]
      rcases FunctionDecl.declare_mem_events declares with ⟨_, isEarlier⟩ | ⟨inEarlier, isLocal⟩
      · exact Or.inr (Or.inl ⟨earlier, present, isEarlier.symm⟩)
      · rcases visible with inFunction | inGlobal
        · have same := Program.eq_of_name_eq noViolations split present
            (inEarlier.symm.trans inFunction)
          exact Or.inl (same ▸ isLocal)
        · exact Or.inr (Or.inr ⟨earlier, present, inEarlier.symm.trans inGlobal, isLocal⟩)

open Shorthand in
theorem used_name_visible_call :
    let double := function "double" ["n"] [ret (some (binary .mul (var "n") (int 2)))]
    let main := function "main" [] [declare "k" (some (call "double" [int 3])), ret (some (var "k"))]
    let sample : Program := ⟨[double, main]⟩
    sample.analyze.errors = [] ∧ "double" ∈ main.usedNames ∧
      ("double" ∈ main.localNames ∨ (∃ earlier ∈ [double, main], earlier.name.name = "double") ∨
        ∃ earlier ∈ [double, main],
          earlier.name.name = globalScope ∧ "double" ∈ earlier.localNames) := by
  intro double main sample
  have clean : sample.analyze.errors = [] := by decide
  have used : "double" ∈ main.usedNames := by decide
  exact ⟨clean, used, used_name_visible sample clean [double] [] main rfl "double" used⟩

open Shorthand in
/-- A variable of a function called `global` is read in the function after it, which has no such
local and follows no function of that name. No error is reported. -/
theorem global_locals_leak :
    let keeper := function "global" [] [declare "x" (some (int 1)), ret (some (var "x"))]
    let main := function "main" [] [ret (some (var "x"))]
    let sample : Program := ⟨[keeper, main]⟩
    sample.analyze.errors = [] ∧ "x" ∈ main.usedNames ∧ "x" ∉ main.localNames ∧
      ∀ earlier ∈ [keeper, main], earlier.name.name ≠ "x" := by
  decide

end MiddleEnd
