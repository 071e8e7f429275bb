import MiddleEnd.Proofs.Optimizer.Preservation
import MiddleEnd.Proofs.Optimizer.Propagation
import MiddleEnd.Proofs.Optimizer.WellFormed

/-!
Contract: the optimizer keeps what straight-line code does, if no literal goes stale in it.

Propagation never forgets a literal. In code without jumps control passes the instructions in the
order in which the pass does, so a known literal is what the store holds, unless something else has
been written to the slot since (`hold_learn`). Code in which this never happens runs as before once
its literals have been propagated (`run_propagate`). Dead code elimination only takes instructions
out, so it does not make literals stale, and the other passes keep all outcomes anyway.

Owns: stale literals, that known literals are held, and the soundness of the whole optimizer on
straight-line code (`optimize_sameOutcome`).
Does not own: what the passes other than propagation keep
(`MiddleEnd.Proofs.Optimizer.Preservation`).
-/

namespace MiddleEnd

/-! ### Straight-line code and stale literals -/

namespace Instruction

/-- The slot that is assigned a literal. -/
def literalSlot? : Instruction → Option Slot
  | assign (.slot place) (.const _) => some place
  | _ => none

/-- The slot that is written by an operation, or by an assignment of anything but a literal. -/
def computedSlot? : Instruction → Option Slot
  | assign (.slot _) (.const _) => none
  | assign (.slot place) _ => some place
  | binary dest _ _ _ => some (.temp dest)
  | _ => none

end Instruction

namespace Code

/-- Code without jumps. -/
def StraightLine (code : Code) : Prop :=
  ∀ instruction ∈ code, instruction.jumpTarget? = none

/-- A slot that is assigned a literal is written only by assignments of literals from then on. -/
def KeepsLiterals (code : Code) : Prop :=
  code.Pairwise fun earlier later =>
    ∀ place ∈ earlier.literalSlot?, later.computedSlot? ≠ some place

instance (code : Code) : Decidable code.StraightLine :=
  inferInstanceAs (Decidable (∀ instruction ∈ code, instruction.jumpTarget? = none))

instance (code : Code) : Decidable code.KeepsLiterals :=
  inferInstanceAs (Decidable (List.Pairwise _ code))

theorem StraightLine.sublist {code part : Code} (straight : code.StraightLine)
    (sublist : part.Sublist code) : part.StraightLine :=
  fun instruction member => straight instruction (sublist.subset member)

end Code

/-! ### What known literals are worth -/

/-- Literals that are what a store holds in their slots. -/
def Literals.Hold (known : Literals) (store : Store) : Prop :=
  ∀ place value, known.lookup place = some value → store place = value

namespace Literals.Hold

variable {known : Literals} {store : Store} {place : Slot}

theorem nil (store : Store) : Literals.Hold [] store := nofun

theorem write_literal (hold : known.Hold store) (place : Slot) (literal : Int64) :
    Literals.Hold ((place, literal) :: known) (store.write place literal) := by
  intro other value found
  by_cases same : other = place
  · rw [same, List.lookup_cons_self] at found
    rw [same, Store.write_same]
    exact Option.some.inj found
  · rw [List.lookup_cons, beq_false_of_ne same] at found
    rw [Store.write_other _ _ same]
    exact hold other value found

theorem write_unknown (hold : known.Hold store) (unknown : known.lookup place = none)
    (result : Int64) : known.Hold (store.write place result) := by
  intro other value found
  have different : other ≠ place := by
    rintro rfl
    rw [unknown] at found
    cases found
  rw [Store.write_other _ _ different]
  exact hold other value found

end Literals.Hold

theorem Operand.value?_substitute {known : Literals} {store : Store} (hold : known.Hold store)
    (operand : Operand) : (operand.substitute known).value? store = operand.value? store := by
  cases operand with
  | const _ => rfl
  | empty => rfl
  | slot place =>
      rw [substitute]
      cases found : known.lookup place with
      | none => rfl
      | some value => exact congrArg some (hold place value found).symm

namespace Instruction

variable {semantics : Semantics} {memory after : Memory} {known : Literals}
  {instruction : Instruction}

/-- An instruction that reads literals in place of slots that hold them does the same. -/
theorem effect_substitute (hold : known.Hold memory.store) (instruction : Instruction) :
    (instruction.substitute known).effect semantics memory =
      instruction.effect semantics memory := by
  cases instruction with
  | assign dest value =>
      cases dest <;> simp only [substitute, effect, Operand.value?_substitute hold]
  | binary dest op left right => simp only [substitute, effect, Operand.value?_substitute hold]
  | label name => rfl
  | goto target => rfl
  | ifFalseGoto cond target => simp only [substitute, effect, Operand.value?_substitute hold]

/-- A slot is written with a literal or with something computed. -/
theorem computedSlot?_of_dest? {place : Slot} (writes : instruction.dest? = some (.slot place))
    (noLiteral : ∀ value, instruction ≠ assign (.slot place) (.const value)) :
    instruction.computedSlot? = some place := by
  cases instruction with
  | assign dest value =>
      cases writes
      cases value with
      | const value => exact absurd rfl (noLiteral value)
      | slot _ => rfl
      | empty => rfl
  | binary dest op left right =>
      cases writes
      rfl
  | label name => cases writes
  | goto target => cases writes
  | ifFalseGoto cond target => cases writes

/-- What is known after an instruction is what the store then holds, provided that the instruction
computes nothing into a slot whose literal is known. -/
theorem hold_learn (advances : instruction.effect semantics memory = .advance after)
    (hold : known.Hold memory.store)
    (fresh : ∀ place, instruction.computedSlot? = some place → known.lookup place = none) :
    (instruction.learn known).Hold after.store := by
  unfold learn
  split
  · rename_i place literal
    cases advances
    exact hold.write_literal place literal
  · rename_i noLiteral
    rcases advance_cases advances with ⟨_, passed⟩ | ⟨place, result, writes, written⟩ | same
    · rw [passed]
      exact hold
    · have computed := computedSlot?_of_dest? writes (noLiteral place)
      rw [written]
      exact hold.write_unknown (fresh place computed) result
    · rw [same]
      exact hold

/-- An instruction that stops returns or traps. -/
theorem stop_cases {stop : Stop} (stops : instruction.effect semantics memory = .stop stop) :
    (∃ value, stop = .returned value) ∨ stop = .trapped := by
  by_cases traps : stop = .trapped
  · exact Or.inr traps
  · have noTrap : Effect.stop stop ≠ .stop .trapped := fun same => traps (Effect.stop.inj same)
    refine Or.inl ?_
    cases instruction with
    | assign dest value =>
        cases dest with
        | ret =>
            cases stops
            exact ⟨_, rfl⟩
        | param =>
            obtain ⟨_, _, done⟩ := Effect.exists_of_withValue stops noTrap
            cases done
        | slot place =>
            obtain ⟨_, _, done⟩ := Effect.exists_of_withValue stops noTrap
            cases done
    | binary dest op left right =>
        obtain ⟨_, _, afterFirst⟩ := Effect.exists_of_withValue stops noTrap
        obtain ⟨_, _, afterSecond⟩ := Effect.exists_of_withValue afterFirst noTrap
        obtain ⟨_, _, done⟩ := Effect.exists_of_withValue afterSecond noTrap
        cases done
    | label name => cases stops
    | goto target => cases stops
    | ifFalseGoto cond target =>
        obtain ⟨_, _, tested⟩ := Effect.exists_of_withValue stops noTrap
        split at tested <;> cases tested

end Instruction

/-! ### Runs of straight-line code -/

/-- The ways to stop that have nothing to do with jumps. -/
def Stop.Ordinary (stop : Stop) : Prop :=
  stop = .finished ∨ (∃ value, stop = .returned value) ∨ stop = .trapped

namespace Code

variable {semantics : Semantics} {code : Code} {state : Machine.State}

/-- A literal that is known at an index has been assigned above it. -/
theorem exists_of_lookup_literalsAbove {index : Nat} {place : Slot} {value : Int64}
    (found : (code.literalsAbove index).lookup place = some value) :
    ∃ source writer, source < index ∧ code[source]? = some writer ∧
      writer.literalSlot? = some place := by
  have becomes := code.becomes_substitute index (.slot place)
  rw [Operand.substitute, found] at becomes
  rcases becomes with ⟨_, ⟨source, above, ⟨dest, assigned, readsBack⟩, _⟩, _⟩ | ⟨_, same⟩
  · cases dest with
    | slot target =>
        cases readsBack
        exact ⟨source, _, above, assigned, rfl⟩
    | ret => cases readsBack
    | param => cases readsBack
  · cases same

/-- Where no literal goes stale, nothing is computed into a slot whose literal is known. -/
theorem KeepsLiterals.fresh (kept : code.KeepsLiterals) {index : Nat} {instruction : Instruction}
    (fetched : code[index]? = some instruction) (place : Slot)
    (computed : instruction.computedSlot? = some place) :
    (code.literalsAbove index).lookup place = none := by
  cases found : (code.literalsAbove index).lookup place with
  | none => rfl
  | some value =>
      obtain ⟨source, writer, above, atSource, assigned⟩ := exists_of_lookup_literalsAbove found
      obtain ⟨sourceInside, rfl⟩ := List.getElem?_eq_some_iff.1 atSource
      obtain ⟨inside, rfl⟩ := List.getElem?_eq_some_iff.1 fetched
      have apart := List.pairwise_iff_getElem.1 kept source index sourceInside inside above
      exact absurd computed (apart place assigned)

theorem StraightLine.effect_ne_jump (straight : code.StraightLine) {index : Nat}
    {instruction : Instruction} {memory : Memory} (fetched : code[index]? = some instruction)
    (target : Label) : instruction.effect semantics memory ≠ .jump target := by
  intro effect
  have noJump := straight instruction (List.mem_of_getElem? fetched)
  rw [Instruction.jumpTarget?_of_jump effect] at noJump
  cases noJump

/-- Straight-line code goes on with the next instruction, or stops. -/
theorem StraightLine.step_cases (straight : code.StraightLine) (semantics : Semantics)
    (inside : state.pc ≤ code.length) :
    (∃ instruction after, code[state.pc]? = some instruction ∧
        instruction.effect semantics state.memory = .advance after ∧
        (Machine.whole semantics code).step state = .move ⟨state.pc + 1, after⟩) ∨
      ∃ stop, stop.Ordinary ∧ (Machine.whole semantics code).step state = .halt stop := by
  cases fetched : code[state.pc]? with
  | none =>
      have atEnd : state.pc = code.length :=
        Nat.le_antisymm inside (List.getElem?_eq_none_iff.1 fetched)
      exact Or.inr ⟨.finished, Or.inl rfl, Machine.step_of_finished atEnd⟩
  | some instruction =>
      have step := Machine.whole_step semantics fetched state.memory
      cases effect : instruction.effect semantics state.memory with
      | advance after =>
          rw [effect] at step
          exact Or.inl ⟨instruction, after, rfl, effect, step⟩
      | jump target => exact absurd effect (straight.effect_ne_jump fetched target)
      | stop stop =>
          rw [effect] at step
          exact Or.inr ⟨stop, Or.inr (Instruction.stop_cases effect), step⟩

/-- Straight-line code stops, since every step brings it closer to its end. -/
theorem StraightLine.exists_stop (straight : code.StraightLine) (semantics : Semantics)
    (state : Machine.State) (inside : state.pc ≤ code.length) :
    ∃ steps stop final, stop.Ordinary ∧
      (Machine.whole semantics code).run steps state = .stopped stop final := by
  induction gap : code.length - state.pc generalizing state with
  | zero =>
      have atEnd : state.pc = code.length := by omega
      exact ⟨1, .finished, state, Or.inl rfl,
        Machine.run_of_halt (Machine.step_of_finished atEnd) 0⟩
  | succ rest inductionHypothesis =>
      rcases straight.step_cases semantics inside with
        ⟨_, after, _, _, moves⟩ | ⟨stop, ordinary, halts⟩
      · have before : state.pc + 1 ≤ code.length := by omega
        have closer : code.length - (state.pc + 1) = rest := by omega
        obtain ⟨steps, stop, final, ordinary, stopped⟩ :=
          inductionHypothesis ⟨state.pc + 1, after⟩ before closer
        exact ⟨steps + 1, stop, final, ordinary, (Machine.run_of_move moves steps).trans stopped⟩
      · exact ⟨1, stop, state, ordinary, Machine.run_of_halt halts 0⟩

/-- A step of code whose literals have been propagated, at a place where they are held. -/
theorem StraightLine.step_propagate (straight : code.StraightLine)
    (hold : (code.literalsAbove state.pc).Hold state.memory.store) :
    (Machine.whole semantics code.propagate).step state =
      (Machine.whole semantics code).step state := by
  have sameFetch : code.propagate[state.pc]? =
      code[state.pc]?.map (Instruction.substitute (code.literalsAbove state.pc)) :=
    code.getElem?_propagateFrom [] state.pc
  have sameLength : code.propagate.length = code.length := code.length_propagateFrom []
  cases fetched : code[state.pc]? with
  | none =>
      rw [fetched] at sameFetch
      simp only [Machine.step, Machine.whole, sameFetch, fetched, sameLength, Option.map_none]
  | some instruction =>
      rw [fetched, Option.map_some] at sameFetch
      rw [Machine.whole_step semantics sameFetch, Machine.whole_step semantics fetched,
        Instruction.effect_substitute hold]
      cases effect : instruction.effect semantics state.memory with
      | advance after => rfl
      | jump target => exact absurd effect (straight.effect_ne_jump fetched target)
      | stop stop => rfl

/-- Propagation keeps the runs of straight-line code in which no literal goes stale. -/
theorem StraightLine.run_propagate (straight : code.StraightLine) (kept : code.KeepsLiterals)
    (steps : Nat) (inside : state.pc ≤ code.length)
    (hold : (code.literalsAbove state.pc).Hold state.memory.store) :
    (Machine.whole semantics code.propagate).run steps state =
      (Machine.whole semantics code).run steps state := by
  induction steps generalizing state with
  | zero => rfl
  | succ steps inductionHypothesis =>
      have sameStep : (Machine.whole semantics code.propagate).step state = _ :=
        straight.step_propagate hold
      rcases straight.step_cases semantics inside with
        ⟨instruction, after, fetched, advances, moves⟩ | ⟨stop, _, halts⟩
      · obtain ⟨before, _⟩ := List.getElem?_eq_some_iff.1 fetched
        have holdNext : (code.literalsAbove (state.pc + 1)).Hold after.store := by
          rw [literalsAbove_succ, fetched]
          exact Instruction.hold_learn advances hold (kept.fresh fetched)
        rw [Machine.run_of_move (sameStep.trans moves), Machine.run_of_move moves]
        exact inductionHypothesis before holdNext
      · rw [Machine.run_of_halt (sameStep.trans halts), Machine.run_of_halt halts]

theorem StraightLine.execution_propagate (straight : code.StraightLine)
    (kept : code.KeepsLiterals) (semantics : Semantics) (store : Store) :
    code.propagate.execution semantics 0 store = code.execution semantics 0 store := by
  funext steps
  have same : (Machine.whole semantics code.propagate).run steps ⟨0, ⟨store, []⟩⟩ = _ :=
    straight.run_propagate kept steps (Nat.zero_le _) (.nil store)
  simp only [execution, Machine.execution, same]

end Code

/-- On straight-line code in which no slot is computed after a literal has been assigned to it, the
optimizer keeps all that can be seen of a run from the first instruction: the parameters, the way it
ends with the value that is returned, and the final contents of all slots. Such a run always ends,
at a return, at an operation without a value or at the end of the code. -/
theorem optimize_sameOutcome (semantics : Semantics) (agrees : semantics.Extends) (entry : String)
    (code : Code) (straight : code.StraightLine) (kept : code.KeepsLiterals) (store : Store) :
    let optimized := (Optimizer.optimize entry code).code
    (code.execution semantics 0 store).SameOutcome (optimized.execution semantics 0 store) ∧
      ∃ stop final params,
        (stop = .finished ∨ (∃ value, stop = .returned value) ∨ stop = .trapped) ∧
          (code.execution semantics 0 store).Has (.ended stop final params) ∧
          (optimized.execution semantics 0 store).Has (.ended stop final params) := by
  intro optimized
  let reached := code.eliminateDead entry
  have sublist : reached.Sublist code := code.eliminateDead_sublist entry
  have propagated : reached.propagate.execution semantics 0 store =
      reached.execution semantics 0 store :=
    (straight.sublist sublist).execution_propagate (kept.sublist sublist) semantics store
  have folded : Code.SameBehaviour semantics entry reached.propagate reached.propagate.fold :=
    Code.sameBehaviour_fold agrees _
  have cleaned : Code.SameBehaviour semantics entry reached.propagate.fold optimized :=
    Code.sameBehaviour_dropSelfAssignments _
  have same : (code.execution semantics 0 store).SameOutcome
      (optimized.execution semantics 0 store) := by
    have afterwards := (folded.trans cleaned).fromFirst store
    rw [propagated] at afterwards
    exact (code.sameBehaviour_eliminateDead.fromFirst store).trans afterwards
  refine ⟨same, ?_⟩
  obtain ⟨steps, stop, final, ordinary, stopped⟩ :=
    straight.exists_stop semantics ⟨0, ⟨store, []⟩⟩ (Nat.zero_le _)
  have ended : (code.execution semantics 0 store).Has
      (.ended stop final.memory.store final.memory.params) := by
    refine ⟨steps, ?_⟩
    simp only [Code.execution, Machine.execution, stopped]
    rfl
  exact ⟨stop, _, _, ordinary, ended, (same _).1 ended⟩

/-- The literal of `x` is put in twice, once to be computed with and once to be returned. The entry
function is kept although the run has returned before it. -/
theorem optimize_sameOutcome_literals :
    let code : Code :=
      [.assign (.slot (.var "x")) (.const 5),
        .binary ⟨0⟩ .add (.slot (.var "x")) (.const 2),
        .assign (.slot (.var "y")) (.slot (.var "y")),
        .assign .param (.slot (.temp ⟨0⟩)),
        .assign (.slot (.var "x")) (.const 6),
        .binary ⟨1⟩ .div (.slot (.var "x")) (.slot (.var "y")),
        .assign .ret (.slot (.var "x")),
        .assign (.slot (.var "z")) (.const 1),
        .label (.function "main"),
        .assign .ret (.slot (.var "z"))]
    let smaller : Code :=
      [.assign (.slot (.var "x")) (.const 5),
        .assign (.slot (.temp ⟨0⟩)) (.const 7),
        .assign .param (.slot (.temp ⟨0⟩)),
        .assign (.slot (.var "x")) (.const 6),
        .binary ⟨1⟩ .div (.const 6) (.slot (.var "y")),
        .assign .ret (.const 6),
        .label (.function "main"),
        .assign .ret (.slot (.var "z"))]
    Semantics.Extends evaluate ∧ code.StraightLine ∧ code.KeepsLiterals ∧
      (Optimizer.optimize "main" code).code = smaller ∧
      ∀ store, (code.execution evaluate 0 store).SameOutcome
        ((Optimizer.optimize "main" code).code.execution evaluate 0 store) := by
  intro code smaller
  have agrees : Semantics.Extends evaluate := fun _ _ _ _ known => known
  have straight : code.StraightLine := by decide
  have kept : code.KeepsLiterals := by decide
  exact ⟨agrees, straight, kept, by decide +kernel, fun store =>
    (optimize_sameOutcome evaluate agrees "main" code straight kept store).1⟩

end MiddleEnd
