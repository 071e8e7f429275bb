import MiddleEnd.Proofs.Execution.Interpreter
import MiddleEnd.Proofs.Lowering.Names

/-!
Contract: how a machine follows a tree, one construct at a time.

A memory mirrors a world if it has the same variables and the same parameters passed, and if the
temporaries that nothing writes are unset. Code computes an expression if it leads from every
memory to one in which an operand has the expression's value, without touching the temporaries
below some bound. Code performs a statement if it leads from every memory to where the statement
leads, and works for as long as the statement has fuel.

Nothing here knows how code comes about: each rule takes the instructions that it needs and where
the machine has them, and says what the pieces do together.

Owns: the two relations and the rules for operations, arguments, sequences, branches and loops.
Does not own: the code of a tree (`MiddleEnd.Proofs.Lowering.Meaning`).
-/

namespace MiddleEnd

/-- What a store has in the variables. -/
def Store.vars (store : Store) : Vars := fun name => store (.var name)

/-- The memory before anything has happened: temporaries are unset, and no parameters are passed. -/
def Memory.initial (unset : Int64) (vars : Vars) : Memory where
  store
    | .var name => vars name
    | .temp _ => unset
  params := []

/-- An operand that reads no temporary with a number from `bound` on. -/
def Operand.Below (bound : Nat) : Operand → Prop
  | .slot (.temp temporary) => temporary.index.toNat < bound
  | _ => True

namespace Machine

variable {machine : Machine} {unset : Int64} {state next : State}

/-! ### Where code stands -/

/-- The machine has an instruction at an index that it runs. -/
structure Executes (machine : Machine) (index : Nat) (instruction : Instruction) : Prop where
  inside : machine.first ≤ index ∧ index < machine.last
  fetched : machine.code[index]? = some instruction

/-- The machine has code from one index up to but not including another. -/
def Holds (machine : Machine) : Nat → Code → Nat → Prop
  | start, [], stop => start = stop
  | start, instruction :: rest, stop =>
      machine.Executes start instruction ∧ machine.Holds (start + 1) rest stop

theorem holds_append {start stop : Nat} {front back : Code} :
    machine.Holds start (front ++ back) stop ↔
      ∃ middle, machine.Holds start front middle ∧ machine.Holds middle back stop := by
  induction front generalizing start with
  | nil => simp [Holds]
  | cons instruction rest inductionHypothesis =>
      simp only [List.cons_append, Holds, inductionHypothesis]
      constructor
      · rintro ⟨executes, middle, held, others⟩
        exact ⟨middle, ⟨executes, held⟩, others⟩
      · rintro ⟨middle, ⟨executes, held⟩, others⟩
        exact ⟨executes, middle, held, others⟩

theorem holds_of_split {front piece back : Code}
    (split : machine.code = front ++ (piece ++ back)) (above : machine.first ≤ front.length)
    (below : front.length + piece.length ≤ machine.last) :
    machine.Holds front.length piece (front.length + piece.length) := by
  induction piece generalizing front with
  | nil => exact (Nat.add_zero _).symm
  | cons instruction rest inductionHypothesis =>
      rw [List.length_cons] at below
      have fetched : machine.code[front.length]? = some instruction := by
        rw [split, List.getElem?_append_right (Nat.le_refl _), Nat.sub_self]
        rfl
      have later := @inductionHypothesis (front ++ [instruction])
      simp only [List.length_append, List.length_singleton, List.append_assoc] at later
      refine ⟨⟨⟨above, by omega⟩, fetched⟩, ?_⟩
      rw [List.length_cons, Nat.add_comm rest.length, ← Nat.add_assoc]
      exact later split (by omega) (by omega)

namespace Executes

variable {index : Nat} {instruction : Instruction} {memory after : Memory}

theorem advance (executes : machine.Executes index instruction)
    (effect : instruction.effect machine.semantics memory = .advance after) :
    machine.run 1 ⟨index, memory⟩ = .running ⟨index + 1, after⟩ := by
  have moved : machine.step ⟨index, memory⟩ = .move ⟨index + 1, after⟩ := by
    rw [step_of_fetch executes.inside executes.fetched, effect, follow]
  exact run_of_move moved 0

theorem jump {target : Label} {goal : Nat} (executes : machine.Executes index instruction)
    (effect : instruction.effect machine.semantics memory = .jump target)
    (defined : machine.code.labelIndex? target = some goal) :
    machine.run 1 ⟨index, memory⟩ = .running ⟨goal, memory⟩ := by
  have moved : machine.step ⟨index, memory⟩ = .move ⟨goal, memory⟩ := by
    rw [step_of_fetch executes.inside executes.fetched, effect, follow, defined]
  exact run_of_move moved 0

theorem halt {stop : Stop} (executes : machine.Executes index instruction)
    (effect : instruction.effect machine.semantics memory = .stop stop) :
    machine.run 1 ⟨index, memory⟩ = .stopped stop ⟨index, memory⟩ := by
  have halted : machine.step ⟨index, memory⟩ = .halt stop := by
    rw [step_of_fetch executes.inside executes.fetched, effect, follow]
  exact run_of_halt halted 0

theorem writeCount_ne_zero {temp : Temp} (executes : machine.Executes index instruction)
    (written : instruction.temp? = some temp) : machine.code.writeCount temp ≠ 0 :=
  Nat.ne_of_gt (Code.writeCount_pos (List.mem_of_getElem? executes.fetched) written)

end Executes

/-! ### Memories and worlds -/

/-- A memory that shows a world. -/
structure Mirrors (machine : Machine) (unset : Int64) (memory : Memory) (world : World) : Prop where
  vars : ∀ name, memory.store (.var name) = world.vars name
  params : memory.params = world.params
  idle : ∀ temp, machine.code.writeCount temp = 0 → memory.store (.temp temp) = unset

namespace Mirrors

variable {memory : Memory} {world : World}

theorem initial (machine : Machine) (unset : Int64) (vars : Vars) :
    machine.Mirrors unset (.initial unset vars) ⟨vars, []⟩ :=
  ⟨fun _ => rfl, rfl, fun _ _ => rfl⟩

theorem pass (mirrors : machine.Mirrors unset memory world) (value : Int64) :
    machine.Mirrors unset { memory with params := memory.params ++ [value] }
      { world with params := world.params ++ [value] } where
  vars := mirrors.vars
  params := by rw [mirrors.params]
  idle := mirrors.idle

theorem assign (mirrors : machine.Mirrors unset memory world) (name : String) (value : Int64) :
    machine.Mirrors unset { memory with store := memory.store.write (.var name) value }
      (world.assign name value) where
  vars := by
    intro other
    by_cases same : other = name
    · simp [same, World.assign]
    · have different : Slot.var other ≠ Slot.var name := by simpa using same
      simp only [Store.write_other _ _ different, mirrors.vars, World.assign, if_neg same]
  params := mirrors.params
  idle := by
    intro temp unwritten
    have different : Slot.temp temp ≠ Slot.var name := nofun
    exact (Store.write_other memory.store value different).trans (mirrors.idle temp unwritten)

theorem writeTemp {temp : Temp} (mirrors : machine.Mirrors unset memory world)
    (written : machine.code.writeCount temp ≠ 0) (value : Int64) :
    machine.Mirrors unset { memory with store := memory.store.write (.temp temp) value } world where
  vars := by
    intro name
    have different : Slot.var name ≠ Slot.temp temp := nofun
    exact (Store.write_other memory.store value different).trans (mirrors.vars name)
  params := mirrors.params
  idle := by
    intro other unwritten
    have different : Slot.temp other ≠ Slot.temp temp := by
      intro same
      cases same
      exact written unwritten
    exact (Store.write_other memory.store value different).trans (mirrors.idle other unwritten)

end Mirrors

/-- The temporaries with numbers below `bound` are the same in two memories. -/
def Keeps (bound : Nat) (before after : Memory) : Prop :=
  ∀ temp : Temp, temp.index.toNat < bound → after.store (.temp temp) = before.store (.temp temp)

theorem value?_of_keeps {bound : Nat} {operand : Operand} {before after : Memory}
    {world later : World} (below : operand.Below bound)
    (mirrors : machine.Mirrors unset before world) (still : machine.Mirrors unset after later)
    (sameVars : later.vars = world.vars) (keeps : Keeps bound before after) :
    operand.value? after.store = operand.value? before.store := by
  cases operand with
  | const value => rfl
  | empty => rfl
  | slot place =>
      cases place with
      | var name => rw [Operand.value?, Operand.value?, still.vars, mirrors.vars, sameVars]
      | temp temporary => rw [Operand.value?, Operand.value?, keeps temporary below]

/-! ### Expressions -/

/-- From a state the machine reaches what an expression comes to: the index after its code, with the
value in an operand and the temporaries below a bound as they were, or a trap. -/
inductive Settles (machine : Machine) (unset : Int64) (bound : Nat) (state : State) (stop : Nat)
    (operand : Operand) (vars : Vars) : Evaluation → Prop where
  | value {steps : Nat} {after : Memory} {value : Int64} {params : List Int64}
      (ran : machine.run steps state = .running ⟨stop, after⟩)
      (mirrors : machine.Mirrors unset after ⟨vars, params⟩)
      (read : operand.value? after.store = some value) (keeps : Keeps bound state.memory after) :
      Settles machine unset bound state stop operand vars ⟨some value, params⟩
  | trap {steps : Nat} {final : State} {params : List Int64}
      (ran : machine.run steps state = .stopped .trapped final)
      (mirrors : machine.Mirrors unset final.memory ⟨vars, params⟩) :
      Settles machine unset bound state stop operand vars ⟨none, params⟩

/-- Between two indices the machine has code that evaluates an expression. -/
def Computes (machine : Machine) (unset : Int64) (bound start stop : Nat) (operand : Operand)
    (eval : Vars → List Int64 → Evaluation) : Prop :=
  ∀ ⦃memory : Memory⦄ ⦃vars : Vars⦄ ⦃params : List Int64⦄,
    machine.Mirrors unset memory ⟨vars, params⟩ →
      machine.Settles unset bound ⟨start, memory⟩ stop operand vars (eval vars params)

section Expressions

variable {bound inner start middle stop : Nat} {operand result : Operand} {vars : Vars}

theorem Settles.after {steps : Nat} {between : State} {evaluation : Evaluation}
    (ran : machine.run steps state = .running between)
    (keeps : Keeps bound state.memory between.memory)
    (later : machine.Settles unset bound between stop operand vars evaluation) :
    machine.Settles unset bound state stop operand vars evaluation := by
  cases later with
  | value laterRan mirrors read laterKeeps =>
      refine .value ((run_add ran _).trans laterRan) mirrors read ?_
      intro temp below
      exact (laterKeeps temp below).trans (keeps temp below)
  | trap laterRan mirrors => exact .trap ((run_add ran _).trans laterRan) mirrors

theorem Settles.weaken {less : Nat} {evaluation : Evaluation} (le : less ≤ bound)
    (settles : machine.Settles unset bound state stop operand vars evaluation) :
    machine.Settles unset less state stop operand vars evaluation := by
  cases settles with
  | value ran mirrors read keeps =>
      exact .value ran mirrors read fun temp below => keeps temp (Nat.lt_of_lt_of_le below le)
  | trap ran mirrors => exact .trap ran mirrors

theorem Settles.andThen {first : Evaluation} {next : Int64 → List Int64 → Evaluation}
    (now : machine.Settles unset bound state middle operand vars first)
    (later : ∀ {after : Memory} {value : Int64} {params : List Int64},
      machine.Mirrors unset after ⟨vars, params⟩ → operand.value? after.store = some value →
        Keeps bound state.memory after →
          machine.Settles unset bound ⟨middle, after⟩ stop result vars (next value params)) :
    machine.Settles unset bound state stop result vars (first.andThen next) := by
  cases now with
  | value ran mirrors read keeps => exact .after ran keeps (later mirrors read keeps)
  | trap ran mirrors => exact .trap ran mirrors

/-- A value that is there already. -/
theorem Settles.here {memory : Memory} {value : Int64} {params : List Int64}
    (mirrors : machine.Mirrors unset memory ⟨vars, params⟩)
    (read : operand.value? memory.store = some value) :
    machine.Settles unset bound ⟨start, memory⟩ start operand vars ⟨some value, params⟩ :=
  .value (run_zero _ _) mirrors read fun _ _ => rfl

/-- The operation itself: both operands are read, then the temporary is written. -/
theorem Settles.operation {memory : Memory} {params : List Int64} {temp : Temp} {op : Operator}
    {left right : Operand} {first second : Int64}
    (mirrors : machine.Mirrors unset memory ⟨vars, params⟩)
    (executes : machine.Executes start (.binary temp op left right))
    (readLeft : left.value? memory.store = some first)
    (readRight : right.value? memory.store = some second) (above : bound ≤ temp.index.toNat) :
    machine.Settles unset bound ⟨start, memory⟩ (start + 1) (.slot (.temp temp)) vars
      ⟨machine.semantics op first second, params⟩ := by
  cases computed : machine.semantics op first second with
  | none =>
      have effect : (Instruction.binary temp op left right).effect machine.semantics memory =
          .stop .trapped := by
        simp [Instruction.effect, Effect.withValue, readLeft, readRight, computed]
      exact .trap (executes.halt effect) mirrors
  | some value =>
      have effect : (Instruction.binary temp op left right).effect machine.semantics memory =
          .advance { memory with store := memory.store.write (.temp temp) value } := by
        simp [Instruction.effect, Effect.withValue, readLeft, readRight, computed]
      refine .value (executes.advance effect)
        (mirrors.writeTemp (executes.writeCount_ne_zero rfl) value) ?_ ?_
      · simp [Operand.value?]
      · intro other below
        have different : Slot.temp other ≠ Slot.temp temp := by
          intro same
          cases same
          omega
        exact Store.write_other memory.store value different

/-- The left operand is read only after the code of the right one, which does not touch it. -/
theorem Computes.binary {finish : Nat} {evalLeft evalRight : Vars → List Int64 → Evaluation}
    {temp : Temp} {op : Operator} {left right : Operand}
    (first : machine.Computes unset bound start middle left evalLeft)
    (second : machine.Computes unset inner middle finish right evalRight)
    (executes : machine.Executes finish (.binary temp op left right)) (le : bound ≤ inner)
    (below : left.Below inner) (above : inner ≤ temp.index.toNat) :
    machine.Computes unset bound start (finish + 1) (.slot (.temp temp)) fun vars params =>
      (evalLeft vars params).andThen fun first params =>
        (evalRight vars params).andThen fun second params =>
          ⟨machine.semantics op first second, params⟩ := by
  intro memory vars params mirrors
  apply (first mirrors).andThen
  intro between firstValue betweenParams betweenMirrors readLeft _
  apply Settles.weaken le
  apply (second betweenMirrors).andThen
  intro after secondValue afterParams afterMirrors readRight keeps
  have stillLeft := value?_of_keeps below betweenMirrors afterMirrors rfl keeps
  exact .operation afterMirrors executes (stillLeft.trans readLeft) readRight above

/-- An argument is passed before the next one is evaluated. -/
theorem Computes.pass {evalArg evalRest : Vars → List Int64 → Evaluation}
    (first : machine.Computes unset bound start middle operand evalArg)
    (executes : machine.Executes middle (.assign .param operand))
    (rest : machine.Computes unset inner (middle + 1) stop result evalRest)
    (le : bound ≤ inner) :
    machine.Computes unset bound start stop result fun vars params =>
      (evalArg vars params).andThen fun value params => evalRest vars (params ++ [value]) := by
  intro memory vars params mirrors
  apply (first mirrors).andThen
  intro between value betweenParams betweenMirrors read _
  have effect : (Instruction.assign .param operand).effect machine.semantics between =
      .advance { between with params := between.params ++ [value] } := by
    simp [Instruction.effect, Effect.withValue, read]
  exact .after (executes.advance effect) (fun _ _ => rfl)
    ((rest (betweenMirrors.pass value)).weaken le)

/-- The result of a call is a temporary that nothing writes. -/
theorem Computes.call {eval : Vars → List Int64 → Evaluation} {temp : Temp}
    (passed : machine.Computes unset bound start stop (.const unset) eval)
    (idle : machine.code.writeCount temp = 0) :
    machine.Computes unset bound start stop (.slot (.temp temp)) eval := by
  intro memory vars params mirrors
  have settles := passed mirrors
  generalize eval vars params = evaluation at settles
  cases settles with
  | value ran afterMirrors read keeps =>
      refine .value ran afterMirrors ?_ keeps
      rw [← read, Operand.value?, Operand.value?, afterMirrors.idle temp idle]
  | trap ran finalMirrors => exact .trap ran finalMirrors

end Expressions

/-! ### Statements -/

/-- From a state the machine reaches what a statement comes to. Where the statement has run out of
fuel, the machine goes on and has done at least as many steps. -/
inductive Yields (machine : Machine) (unset : Int64) (fuel : Nat) (state : State) (stop : Nat) :
    Progress → Prop where
  | completed {steps : Nat} {after : Memory} {world : World}
      (ran : machine.run steps state = .running ⟨stop, after⟩)
      (mirrors : machine.Mirrors unset after world) :
      Yields machine unset fuel state stop ⟨.completed, world⟩
  | returned {steps : Nat} {value : Option Int64} {final : State} {world : World}
      (ran : machine.run steps state = .stopped (.returned value) final)
      (mirrors : machine.Mirrors unset final.memory world) :
      Yields machine unset fuel state stop ⟨.returned value, world⟩
  | trapped {steps : Nat} {final : State} {world : World}
      (ran : machine.run steps state = .stopped .trapped final)
      (mirrors : machine.Mirrors unset final.memory world) :
      Yields machine unset fuel state stop ⟨.trapped, world⟩
  | exhausted {steps : Nat} {middle : State} {world : World} (enough : fuel ≤ steps)
      (ran : machine.run steps state = .running middle)
      (mirrors : machine.Mirrors unset middle.memory world) :
      Yields machine unset fuel state stop ⟨.exhausted, world⟩

/-- Between two indices the machine has code that executes a statement. -/
def Performs (machine : Machine) (unset : Int64) (fuel start stop : Nat)
    (exec : World → Progress) : Prop :=
  ∀ ⦃memory : Memory⦄ ⦃world : World⦄, machine.Mirrors unset memory world →
    machine.Yields unset fuel ⟨start, memory⟩ stop (exec world)

section Statements

variable {fuel bound start middle stop : Nat} {operand : Operand}

theorem Yields.after {steps less : Nat} {progress : Progress}
    (ran : machine.run steps state = .running next)
    (later : machine.Yields unset fuel next stop progress) (enough : less ≤ steps + fuel) :
    machine.Yields unset less state stop progress := by
  cases later with
  | completed laterRan mirrors => exact .completed ((run_add ran _).trans laterRan) mirrors
  | returned laterRan mirrors => exact .returned ((run_add ran _).trans laterRan) mirrors
  | trapped laterRan mirrors => exact .trapped ((run_add ran _).trans laterRan) mirrors
  | exhausted laterEnough laterRan mirrors =>
      exact .exhausted (by omega) ((run_add ran _).trans laterRan) mirrors

theorem Yields.weaken {less : Nat} {progress : Progress} (le : less ≤ fuel)
    (yields : machine.Yields unset fuel state stop progress) :
    machine.Yields unset less state stop progress :=
  .after (run_zero _ _) yields (by omega)

theorem Yields.andThen {first : Progress} {exec : World → Progress}
    (now : machine.Yields unset fuel state middle first)
    (later : machine.Performs unset fuel middle stop exec) :
    machine.Yields unset fuel state stop (first.andThen exec) := by
  cases now with
  | completed ran mirrors => exact .after ran (later mirrors) (Nat.le_add_left _ _)
  | returned ran mirrors => exact .returned ran mirrors
  | trapped ran mirrors => exact .trapped ran mirrors
  | exhausted enough ran mirrors => exact .exhausted enough ran mirrors

theorem Performs.andThen {exec later : World → Progress}
    (first : machine.Performs unset fuel start middle exec)
    (second : machine.Performs unset fuel middle stop later) :
    machine.Performs unset fuel start stop fun world => (exec world).andThen later :=
  fun _ _ mirrors => (first mirrors).andThen second

theorem Performs.nothing (machine : Machine) (unset : Int64) (fuel start : Nat) :
    machine.Performs unset fuel start start fun world => ⟨.completed, world⟩ :=
  fun _ _ mirrors => .completed (run_zero _ _) mirrors

/-- Code that evaluates an expression, and code that goes on with its value. -/
theorem Computes.evalThen {expr : Expr} {use : Int64 → World → Progress}
    (computes : machine.Computes unset bound start middle operand
      (expr.eval machine.semantics unset))
    (later : ∀ {memory : Memory} {world : World} {value : Int64},
      machine.Mirrors unset memory world → operand.value? memory.store = some value →
        machine.Yields unset fuel ⟨middle, memory⟩ stop (use value world)) :
    machine.Performs unset fuel start stop (expr.evalThen machine.semantics unset use) := by
  intro memory world mirrors
  have settles : machine.Settles unset bound ⟨start, memory⟩ middle operand world.vars
      (expr.eval machine.semantics unset world.vars world.params) := computes mirrors
  rw [Expr.evalThen]
  generalize expr.eval machine.semantics unset world.vars world.params = evaluation at settles
  cases settles with
  | value ran afterMirrors read _ =>
      exact .after ran (later afterMirrors read) (Nat.le_add_left _ _)
  | trap ran finalMirrors => exact .trapped ran finalMirrors

theorem Executes.stores {index : Nat} {memory : Memory} {world : World} {value : Int64}
    {name : String} (executes : machine.Executes index (.assign (.slot (.var name)) operand))
    (mirrors : machine.Mirrors unset memory world)
    (read : operand.value? memory.store = some value) :
    machine.Yields unset fuel ⟨index, memory⟩ (index + 1)
      ⟨.completed, world.assign name value⟩ := by
  have effect : (Instruction.assign (.slot (.var name)) operand).effect machine.semantics memory =
      .advance { memory with store := memory.store.write (.var name) value } := by
    simp [Instruction.effect, Effect.withValue, read]
  exact .completed (executes.advance effect) (mirrors.assign name value)

theorem Executes.returns {index : Nat} {memory : Memory} {world : World} {value : Option Int64}
    (executes : machine.Executes index (.assign .ret operand))
    (mirrors : machine.Mirrors unset memory world) (read : operand.value? memory.store = value) :
    machine.Yields unset fuel ⟨index, memory⟩ stop ⟨.returned value, world⟩ := by
  rw [← read]
  exact .returned (executes.halt rfl) mirrors

/-- A conditional jump goes to its target if the value is zero, and on otherwise. -/
theorem Executes.tests {index goal : Nat} {label : Label} {progress : Progress} {memory : Memory}
    {value : Int64} (executes : machine.Executes index (.ifFalseGoto operand label))
    (defined : machine.code.labelIndex? label = some goal)
    (read : operand.value? memory.store = some value)
    (ifZero : value = 0 → machine.Yields unset fuel ⟨goal, memory⟩ stop progress)
    (otherwise : value ≠ 0 → machine.Yields unset fuel ⟨index + 1, memory⟩ stop progress) :
    machine.Yields unset fuel ⟨index, memory⟩ stop progress := by
  by_cases zero : value = 0
  · have effect : (Instruction.ifFalseGoto operand label).effect machine.semantics memory =
        .jump label := by
      simp [Instruction.effect, Effect.withValue, read, zero]
    exact .after (executes.jump effect defined) (ifZero zero) (Nat.le_add_left _ _)
  · have effect : (Instruction.ifFalseGoto operand label).effect machine.semantics memory =
        .advance memory := by
      simp [Instruction.effect, Effect.withValue, read, zero]
    exact .after (executes.advance effect) (otherwise zero) (Nat.le_add_left _ _)

/-- Code that ends where the machine goes on without any effect. -/
theorem Performs.onward {exec : World → Progress}
    (first : machine.Performs unset fuel start middle exec)
    (silent : machine.Performs unset fuel middle stop fun world => ⟨.completed, world⟩) :
    machine.Performs unset fuel start stop exec := by
  intro memory world mirrors
  have yields := (first mirrors).andThen silent
  rw [Progress.andThen_completed] at yields
  exact yields

/-- A label stands at an index, and jumps to it go there. -/
structure Marks (machine : Machine) (index : Nat) (label : Label) : Prop where
  executes : machine.Executes index (.label label)
  defined : machine.code.labelIndex? label = some index

theorem Performs.label {index : Nat} {label : Label} (marks : machine.Marks index label) :
    machine.Performs unset fuel index (index + 1) fun world => ⟨.completed, world⟩ :=
  fun _ _ mirrors => .completed (marks.executes.advance rfl) mirrors

theorem Performs.goto {index goal : Nat} {label : Label}
    (executes : machine.Executes index (.goto label)) (marks : machine.Marks goal label) :
    machine.Performs unset fuel index goal fun world => ⟨.completed, world⟩ :=
  fun _ _ mirrors => .completed (executes.jump rfl marks.defined) mirrors

theorem Performs.branch {cond : Expr} {elseLabel endLabel : Label} {tested thenStop elseStop : Nat}
    {execThen execElse : World → Progress}
    (test : machine.Computes unset bound start tested operand
      (cond.eval machine.semantics unset))
    (branches : machine.Executes tested (.ifFalseGoto operand elseLabel))
    (first : machine.Performs unset fuel (tested + 1) thenStop execThen)
    (skips : machine.Executes thenStop (.goto endLabel))
    (elseMark : machine.Marks (thenStop + 1) elseLabel)
    (second : machine.Performs unset fuel (thenStop + 1 + 1) elseStop execElse)
    (endMark : machine.Marks elseStop endLabel) :
    machine.Performs unset fuel start (elseStop + 1)
      (cond.evalThen machine.semantics unset fun value world =>
        if value = 0 then execElse world else execThen world) := by
  have thenWay := first.onward ((Performs.goto skips endMark).onward (.label endMark))
  have elseWay := second.onward (.label endMark)
  apply test.evalThen
  intro memory world value mirrors read
  apply branches.tests elseMark.defined read
  · intro zero
    rw [if_pos zero]
    exact .after (elseMark.executes.advance rfl) (elseWay mirrors) (Nat.le_add_left _ _)
  · intro nonzero
    rw [if_neg nonzero]
    exact thenWay mirrors

/-- A loop takes at least one step each time around, so it works for as long as it has fuel. -/
theorem Performs.loop {cond : Expr} {startLabel endLabel : Label} {tested bodyStop rounds : Nat}
    {exec : World → Progress} (startMark : machine.Marks start startLabel)
    (test : machine.Computes unset bound (start + 1) tested operand
      (cond.eval machine.semantics unset))
    (branches : machine.Executes tested (.ifFalseGoto operand endLabel))
    (body : machine.Performs unset fuel (tested + 1) bodyStop exec)
    (repeats : machine.Executes bodyStop (.goto startLabel))
    (endMark : machine.Marks (bodyStop + 1) endLabel) (le : rounds ≤ fuel) :
    machine.Performs unset rounds start (bodyStop + 1 + 1)
      (cond.loop machine.semantics unset exec rounds) := by
  -- The body keeps all of the fuel in every round; only the rounds that are left get fewer.
  induction rounds with
  | zero =>
      intro memory world mirrors
      exact .exhausted (Nat.le_refl _) (run_zero _ _) mirrors
  | succ rounds inductionHypothesis =>
      have again : machine.Performs unset (rounds + 1) bodyStop (bodyStop + 1 + 1)
          (cond.loop machine.semantics unset exec rounds) := by
        intro memory world mirrors
        exact .after (repeats.jump rfl startMark.defined)
          (inductionHypothesis (Nat.le_of_succ_le le) mirrors) (by omega)
      have around : machine.Performs unset (rounds + 1) (start + 1) (bodyStop + 1 + 1)
          (cond.loop machine.semantics unset exec (rounds + 1)) := by
        apply test.evalThen
        intro memory world value mirrors read
        apply branches.tests endMark.defined read
        · intro zero
          rw [if_pos zero]
          exact Performs.label endMark mirrors
        · intro nonzero
          rw [if_neg nonzero]
          exact ((body mirrors).weaken le).andThen again
      intro memory world mirrors
      exact .after (startMark.executes.advance rfl) (around mirrors) (Nat.le_add_left _ _)

theorem execution_eq_snapshot {steps : Nat} {reached : Reached} {signal : Signal} {world : World}
    (ran : machine.run steps state = reached) (same : reached.stop? = signal.stop?)
    (mirrors : machine.Mirrors unset reached.memory world) :
    machine.execution Store.vars state steps = Progress.snapshot ⟨signal, world⟩ := by
  simp only [execution, ran, same, Progress.snapshot, mirrors.params, Snapshot.mk.injEq]
  exact ⟨trivial, funext mirrors.vars, trivial⟩

/-- At the end of the code that is run, the machine stops with what the statement came to. -/
theorem Yields.exists_snapshot {progress : Progress}
    (yields : machine.Yields unset fuel state machine.last progress) :
    ∃ steps, machine.execution Store.vars state steps = progress.snapshot ∧
      (progress.snapshot.ending = none → fuel ≤ steps) := by
  cases yields with
  | @completed steps after world ran mirrors =>
      -- A statement that completes leaves the machine at the end, where one more step stops it.
      have halted : machine.step ⟨machine.last, after⟩ = .halt .finished := step_of_finished rfl
      have stopped := (run_add ran 1).trans (run_of_halt halted 0)
      exact ⟨_, execution_eq_snapshot stopped rfl mirrors, nofun⟩
  | returned ran mirrors => exact ⟨_, execution_eq_snapshot ran rfl mirrors, nofun⟩
  | trapped ran mirrors => exact ⟨_, execution_eq_snapshot ran rfl mirrors, nofun⟩
  | exhausted enough ran mirrors =>
      exact ⟨_, execution_eq_snapshot ran rfl mirrors, fun _ => enough⟩

theorem sameOutcome_of_yields {progress : Nat → Progress}
    (yields : ∀ fuel, machine.Yields unset fuel state machine.last (progress fuel)) :
    Execution.SameOutcome (fun fuel => (progress fuel).snapshot)
      (machine.execution Store.vars state) := by
  apply Execution.sameOutcome_of_keeping_up
  · intro steps more ended later
    exact execution_stays Store.vars ended later
  · intro steps more later
    exact params_prefix_of_le later
  · intro fuel
    exact (yields fuel).exists_snapshot

end Statements

end Machine

end MiddleEnd
