import MiddleEnd.Optimizer.Reachability
import MiddleEnd.Proofs.Execution.Outcome

/-!
Contract: a machine that runs three-address code.

A machine runs a stretch of code, which may be all of it, one instruction at a time. What an
operator computes is a parameter, and an operation without a value traps. So does reading the empty
operand, except that a return may return nothing. A jump goes to the last place where its label is
defined, wherever that is: control that leaves the stretch by other than its end is astray.

Owns: the step of the machine, its runs, and that parameters once passed stay passed.
Does not own: any code.
-/

namespace MiddleEnd

/-- What the operators compute, where they are defined. -/
abbrev Semantics := Operator → Int64 → Int64 → Option Int64

/-- The contents of all slots. -/
abbrev Store := Slot → Int64

namespace Store

def write (store : Store) (place : Slot) (value : Int64) : Store :=
  fun other => if other = place then value else store other

@[simp] theorem write_same (store : Store) (place : Slot) (value : Int64) :
    store.write place value place = value := by
  simp [write]

theorem write_other (store : Store) {place other : Slot} (value : Int64)
    (different : other ≠ place) : store.write place value other = store other := by
  simp [write, different]

theorem write_self (store : Store) (place : Slot) : store.write place (store place) = store := by
  funext other
  by_cases same : other = place
  · rw [same, write_same]
  · rw [write_other store _ same]

end Store

/-- The value of an operand; the empty operand has none. -/
def Operand.value? (store : Store) : Operand → Option Int64
  | .const value => some value
  | .slot place => some (store place)
  | .empty => none

/-- Why a machine stops. -/
inductive Stop where
  /-- Control has reached the end of the code that is run. -/
  | finished
  /-- Control has left the code that is run in some other way. -/
  | astray
  /-- A jump was taken to a label that is defined nowhere. -/
  | lost (target : Label)
  | returned (value : Option Int64)
  /-- An operand or an operation had no value. -/
  | trapped
deriving DecidableEq, Repr

/-- The contents of the slots, and the parameters passed so far. -/
structure Memory where
  store : Store
  params : List Int64

/-- What an instruction does, wherever it stands. -/
inductive Effect where
  /-- Go on with the next instruction. -/
  | advance (memory : Memory)
  /-- Go on at a label; nothing is written. -/
  | jump (target : Label)
  | stop (stop : Stop)

/-- What is done with a value, if there is one. -/
def Effect.withValue (value : Option Int64) (use : Int64 → Effect) : Effect :=
  match value with
  | some value => use value
  | none => .stop .trapped

/-- The effect of an instruction. A condition is false if it is zero. -/
def Instruction.effect (semantics : Semantics) (memory : Memory) : Instruction → Effect
  | assign .ret value => .stop (.returned (value.value? memory.store))
  | assign .param value =>
      .withValue (value.value? memory.store) fun value =>
        .advance { memory with params := memory.params ++ [value] }
  | assign (.slot place) value =>
      .withValue (value.value? memory.store) fun value =>
        .advance { memory with store := memory.store.write place value }
  | binary dest op left right =>
      .withValue (left.value? memory.store) fun left =>
        .withValue (right.value? memory.store) fun right =>
          .withValue (semantics op left right) fun value =>
            .advance { memory with store := memory.store.write (.temp dest) value }
  | label _ => .advance memory
  | goto target => .jump target
  | ifFalseGoto cond target =>
      .withValue (cond.value? memory.store) fun value =>
        if value = 0 then .jump target else .advance memory

/-- An effect other than a trap had its value. -/
theorem Effect.exists_of_withValue {value : Option Int64} {use : Int64 → Effect} {effect : Effect}
    (result : Effect.withValue value use = effect) (noTrap : effect ≠ .stop .trapped) :
    ∃ read, value = some read ∧ use read = effect := by
  cases value with
  | none => exact absurd result.symm noTrap
  | some read => exact ⟨read, rfl, result⟩

/-- An instruction that advances passes a parameter, writes its destination, or does nothing. -/
theorem Instruction.advance_cases {semantics : Semantics} {memory after : Memory}
    {instruction : Instruction}
    (advances : instruction.effect semantics memory = .advance after) :
    (∃ value, after = { memory with params := memory.params ++ [value] }) ∨
      (∃ place value, instruction.dest? = some (.slot place) ∧
        after = { memory with store := memory.store.write place value }) ∨
      after = memory := by
  cases instruction with
  | assign dest value =>
      cases dest with
      | ret => cases advances
      | param =>
          obtain ⟨read, _, done⟩ := Effect.exists_of_withValue advances nofun
          cases done
          exact Or.inl ⟨read, rfl⟩
      | slot place =>
          obtain ⟨read, _, done⟩ := Effect.exists_of_withValue advances nofun
          cases done
          exact Or.inr (Or.inl ⟨place, read, rfl, rfl⟩)
  | binary dest op left right =>
      obtain ⟨first, _, afterFirst⟩ := Effect.exists_of_withValue advances nofun
      obtain ⟨second, _, afterSecond⟩ := Effect.exists_of_withValue afterFirst nofun
      obtain ⟨result, _, done⟩ := Effect.exists_of_withValue afterSecond nofun
      cases done
      exact Or.inr (Or.inl ⟨.temp dest, result, rfl, rfl⟩)
  | label name =>
      cases advances
      exact Or.inr (Or.inr rfl)
  | goto target => cases advances
  | ifFalseGoto cond target =>
      obtain ⟨read, _, tested⟩ := Effect.exists_of_withValue advances nofun
      split at tested
      · cases tested
      · cases tested
        exact Or.inr (Or.inr rfl)

/-- A machine that runs the instructions of some code from `first` up to but not including
`last`. -/
structure Machine where
  semantics : Semantics
  code : Code
  first : Nat
  last : Nat

namespace Machine

/-- The machine that runs all of some code. -/
def whole (semantics : Semantics) (code : Code) : Machine := ⟨semantics, code, 0, code.length⟩

/-- The index of the next instruction, and the memory. -/
structure State where
  pc : Nat
  memory : Memory

/-- What one step leads to. -/
inductive Step where
  | move (state : State)
  | halt (stop : Stop)

/-- What a number of steps has led to. -/
inductive Reached where
  | running (state : State)
  | stopped (stop : Stop) (state : State)

/-- Where control goes after an effect at a state. -/
def follow (machine : Machine) (state : State) : Effect → Step
  | .advance memory => .move ⟨state.pc + 1, memory⟩
  | .jump target =>
      match machine.code.labelIndex? target with
      | some index => .move ⟨index, state.memory⟩
      | none => .halt (.lost target)
  | .stop stop => .halt stop

/-- Do one step: stop at the end, and outside of the code that is run. -/
def step (machine : Machine) (state : State) : Step :=
  if state.pc = machine.last then .halt .finished
  else if machine.first ≤ state.pc ∧ state.pc < machine.last then
    match machine.code[state.pc]? with
    | some instruction =>
        machine.follow state (instruction.effect machine.semantics state.memory)
    | none => .halt .astray
  else .halt .astray

/-- Do a number of steps, or fewer if the machine stops. -/
def run (machine : Machine) : Nat → State → Reached
  | 0, state => .running state
  | steps + 1, state =>
      match machine.step state with
      | .move next => machine.run steps next
      | .halt stop => .stopped stop state

namespace Reached

def memory : Reached → Memory
  | running state => state.memory
  | stopped _ state => state.memory

def stop? : Reached → Option Stop
  | running _ => none
  | stopped stop _ => some stop

end Reached

/-- The execution from a state on, of which a view of the store is seen. -/
def execution {Seen : Type} (machine : Machine) (view : Store → Seen) (state : State) :
    Execution Stop Seen :=
  fun steps =>
    let reached := machine.run steps state
    ⟨reached.stop?, view reached.memory.store, reached.memory.params⟩

variable {machine : Machine} {state next : State}

/-! ### Steps -/

theorem step_of_fetch {instruction : Instruction}
    (inside : machine.first ≤ state.pc ∧ state.pc < machine.last)
    (fetched : machine.code[state.pc]? = some instruction) :
    machine.step state =
      machine.follow state (instruction.effect machine.semantics state.memory) := by
  have notLast : state.pc ≠ machine.last := by omega
  rw [step, if_neg notLast, if_pos inside, fetched]

theorem step_of_finished (atEnd : state.pc = machine.last) :
    machine.step state = .halt .finished := by
  rw [step, if_pos atEnd]

theorem whole_step (semantics : Semantics) {code : Code} {index : Nat} {instruction : Instruction}
    (fetched : code[index]? = some instruction) (memory : Memory) :
    (whole semantics code).step ⟨index, memory⟩ =
      (whole semantics code).follow ⟨index, memory⟩ (instruction.effect semantics memory) := by
  obtain ⟨inside, _⟩ := List.getElem?_eq_some_iff.1 fetched
  exact step_of_fetch ⟨Nat.zero_le _, inside⟩ fetched

theorem whole_step_length (semantics : Semantics) (code : Code) (memory : Memory) :
    (whole semantics code).step ⟨code.length, memory⟩ = .halt .finished :=
  step_of_finished rfl

theorem whole_follow_jump (semantics : Semantics) {code : Code} {target : Label} {index : Nat}
    (defined : code.labelIndex? target = some index) (state : State) :
    (whole semantics code).follow state (.jump target) = .move ⟨index, state.memory⟩ := by
  simp only [follow, whole, defined]

theorem whole_follow_lost (semantics : Semantics) {code : Code} {target : Label}
    (missing : code.labelIndex? target = none) (state : State) :
    (whole semantics code).follow state (.jump target) = .halt (.lost target) := by
  simp only [follow, whole, missing]

/-- A step that moves executes an instruction of the code, which advances or jumps. -/
theorem exists_of_move (moved : machine.step state = .move next) :
    ∃ instruction ∈ machine.code,
      instruction.effect machine.semantics state.memory = .advance next.memory ∨
        next.memory = state.memory := by
  unfold step at moved
  split at moved
  · cases moved
  · split at moved
    · split at moved
      · rename_i instruction fetched
        refine ⟨instruction, List.mem_of_getElem? fetched, ?_⟩
        unfold follow at moved
        split at moved
        · cases moved
          exact Or.inl ‹_›
        · split at moved
          · cases moved
            exact Or.inr rfl
          · cases moved
        · cases moved
      · cases moved
    · cases moved

theorem params_prefix_of_move (moved : machine.step state = .move next) :
    state.memory.params <+: next.memory.params := by
  obtain ⟨instruction, _, advances | same⟩ := exists_of_move moved
  · rcases Instruction.advance_cases advances with
      ⟨value, passed⟩ | ⟨place, value, _, written⟩ | same
    · rw [passed]
      exact List.prefix_append _ _
    · rw [written]
    · rw [same]
  · rw [same]

/-! ### Runs -/

theorem run_zero (machine : Machine) (state : State) : machine.run 0 state = .running state := rfl

theorem run_of_move (moved : machine.step state = .move next) (steps : Nat) :
    machine.run (steps + 1) state = machine.run steps next := by
  rw [run, moved]

theorem run_of_halt {stop : Stop} (halted : machine.step state = .halt stop) (steps : Nat) :
    machine.run (steps + 1) state = .stopped stop state := by
  rw [run, halted]

/-- A run that is still going can be continued. -/
theorem run_add {steps : Nat} (running : machine.run steps state = .running next) (more : Nat) :
    machine.run (steps + more) state = machine.run more next := by
  induction steps generalizing state with
  | zero =>
      cases running
      rw [Nat.zero_add]
  | succ steps inductionHypothesis =>
      cases stepped : machine.step state with
      | move middle =>
          rw [run_of_move stepped] at running
          rw [Nat.add_right_comm, run_of_move stepped]
          exact inductionHypothesis running
      | halt stop =>
          rw [run_of_halt stepped] at running
          cases running

/-- A run that has stopped stays as it is. -/
theorem run_of_stopped {steps more : Nat} {stop : Stop}
    (stopped : machine.run steps state = .stopped stop next) (later : steps ≤ more) :
    machine.run more state = .stopped stop next := by
  induction steps generalizing state more with
  | zero => cases stopped
  | succ steps inductionHypothesis =>
      obtain ⟨rest, rfl⟩ : ∃ rest, more = rest + 1 := ⟨more - 1, by omega⟩
      cases stepped : machine.step state with
      | move middle =>
          rw [run_of_move stepped] at stopped ⊢
          exact inductionHypothesis stopped (by omega)
      | halt halted =>
          rw [run_of_halt stepped] at stopped ⊢
          exact stopped

/-- Parameters that have been passed stay passed. -/
theorem params_prefix_of_le {steps more : Nat} (later : steps ≤ more) :
    (machine.run steps state).memory.params <+: (machine.run more state).memory.params := by
  have fromStart : ∀ (count : Nat) (start : State),
      start.memory.params <+: (machine.run count start).memory.params := by
    intro count
    induction count with
    | zero => exact fun _ => List.prefix_rfl
    | succ count inductionHypothesis =>
        intro start
        cases stepped : machine.step start with
        | move middle =>
            rw [run_of_move stepped]
            exact (params_prefix_of_move stepped).trans (inductionHypothesis middle)
        | halt stop =>
            rw [run_of_halt stepped]
            exact List.prefix_rfl
  cases reached : machine.run steps state with
  | running middle =>
      obtain ⟨rest, rfl⟩ := Nat.exists_eq_add_of_le later
      rw [run_add reached]
      exact fromStart rest middle
  | stopped stop final =>
      rw [run_of_stopped reached later]

theorem execution_stays {Seen : Type} (view : Store → Seen) {steps more : Nat}
    (ended : (machine.execution view state steps).ending ≠ none) (later : steps ≤ more) :
    machine.execution view state more = machine.execution view state steps := by
  unfold execution at ended ⊢
  cases reached : machine.run steps state with
  | running next =>
      rw [reached] at ended
      exact absurd rfl ended
  | stopped stop final => rw [run_of_stopped reached later]

end Machine

end MiddleEnd
