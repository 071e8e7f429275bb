import MiddleEnd.Optimizer.Pipeline
import MiddleEnd.Proofs.Execution.Simulation
import MiddleEnd.Proofs.Optimizer.Reachability
import MiddleEnd.Proofs.Optimizer.Selection

/-!
Contract: three of the four passes never change what code does.

A selection of instructions is faithful if the places that control can be at are closed under its
moves, jumps go to kept instructions only, and what is dropped at such a place is a self-assignment.
A machine then runs the selection as it runs the code, with places moved down by the instructions
dropped before them. The elimination of dead code and that of self-assignments are faithful;
folding does not move anything. So any sequence of these passes keeps all outcomes, from the first
instruction and from the entry function (`runAll_sameBehaviour`). Nothing is assumed of the code.

Owns: the preservation of outcomes by `deadCode`, `constantFolding` and `redundantAssignment`.
Does not own: the propagation of literals, which does not keep outcomes.
-/

namespace MiddleEnd

/-- Operations on literals have the values that folding gives them. -/
def Semantics.Extends (semantics : Semantics) : Prop :=
  ∀ op left right value, evaluate op left right = some value →
    semantics op left right = some value

/-! ### Effects and control -/

namespace Instruction

variable {semantics : Semantics} {memory after : Memory} {instruction : Instruction}

theorem endsRun_of_advance (advances : instruction.effect semantics memory = .advance after) :
    instruction.endsRun = false := by
  match instruction, advances with
  | assign (.slot _) _, _ => rfl
  | assign .param _, _ => rfl
  | binary _ _ _ _, _ => rfl
  | label _, _ => rfl
  | ifFalseGoto _ _, _ => rfl

theorem jumpTarget?_of_jump {target : Label}
    (jumps : instruction.effect semantics memory = .jump target) :
    instruction.jumpTarget? = some target := by
  cases instruction with
  | assign dest value =>
      cases dest with
      | ret => cases jumps
      | param =>
          obtain ⟨_, _, done⟩ := Effect.exists_of_withValue jumps nofun
          cases done
      | slot place =>
          obtain ⟨_, _, done⟩ := Effect.exists_of_withValue jumps nofun
          cases done
  | binary dest op left right =>
      obtain ⟨_, _, afterFirst⟩ := Effect.exists_of_withValue jumps nofun
      obtain ⟨_, _, afterSecond⟩ := Effect.exists_of_withValue afterFirst nofun
      obtain ⟨_, _, done⟩ := Effect.exists_of_withValue afterSecond nofun
      cases done
  | label name => cases jumps
  | goto label =>
      cases jumps
      rfl
  | ifFalseGoto cond label =>
      obtain ⟨_, _, tested⟩ := Effect.exists_of_withValue jumps nofun
      split at tested
      · cases tested
        rfl
      · cases tested

/-- A self-assignment writes what is there already. -/
theorem effect_of_isSelfAssignment (isSelf : instruction.isSelfAssignment = true) :
    instruction.effect semantics memory = .advance memory := by
  match instruction, isSelf with
  | assign (.slot place) value, isSelf =>
      have same : .slot place = value := by
        simpa [isSelfAssignment, Dest.operand?] using isSelf
      rw [← same]
      simp [effect, Operand.value?, Effect.withValue, Store.write_self]

/-- Folding replaces an operation by the value that it has. -/
theorem effect_fold (agrees : semantics.Extends) :
    instruction.fold.effect semantics memory = instruction.effect semantics memory := by
  rcases instruction.fold_cases with same | ⟨dest, op, left, right, value, rfl, known, folded⟩
  · rw [same]
  · rw [folded]
    simp [effect, Operand.value?, Effect.withValue, agrees op left right value known]

theorem fold_eq_label_iff (instruction : Instruction) (name : Label) :
    instruction.fold = .label name ↔ instruction = .label name := by
  rcases instruction.fold_cases with same | ⟨_, _, _, _, _, rfl, _, folded⟩
  · rw [same]
  · simp [folded]

end Instruction

/-! ### Faithful selections -/

namespace Code

/-- A selection that a machine cannot tell from the code, as long as control is at a live place. -/
structure Faithful (code : Code) (keep : Nat → Bool) (live : Nat → Prop) : Prop where
  next : ∀ {index instruction}, live index → code[index]? = some instruction →
    instruction.endsRun = false → live (index + 1)
  jump : ∀ {index instruction label target}, live index → code[index]? = some instruction →
    instruction.jumpTarget? = some label → code.labelIndex? label = some target →
    live target ∧ keep target = true
  dropped : ∀ {index instruction}, live index → code[index]? = some instruction →
    keep index = false → instruction.isSelfAssignment = true

/-- A live place of the code, and where it has moved to. -/
def Moved (code : Code) (keep : Nat → Bool) (live : Nat → Prop) (index moved : Nat) : Prop :=
  index ≤ code.length ∧ live index ∧ moved = rank keep index

variable {code : Code} {keep : Nat → Bool} {live : Nat → Prop}

/-- At a live place that is kept, both machines execute the same instruction. -/
theorem Faithful.matched_kept (faithful : code.Faithful keep live) (semantics : Semantics)
    {index : Nat} {instruction : Instruction} (isLive : live index)
    (fetched : code[index]? = some instruction) (kept : keep index = true) (memory : Memory) :
    Machine.Matched (.whole semantics code) (.whole semantics (code.select keep))
      (code.Moved keep live) index (rank keep index) memory := by
  have sameFetched : (code.select keep)[rank keep index]? = some instruction := by
    rw [getElem?_select kept, fetched]
  have leftStep := Machine.whole_step semantics fetched memory
  have rightStep := Machine.whole_step semantics sameFetched memory
  obtain ⟨inside, _⟩ := List.getElem?_eq_some_iff.1 fetched
  cases effect : instruction.effect semantics memory with
  | advance after =>
      rw [effect] at leftStep rightStep
      refine .move (index + 1) (rank keep index + 1) after leftStep rightStep ?_
      exact ⟨inside, faithful.next isLive fetched (Instruction.endsRun_of_advance effect),
        (rank_succ_of_keep kept).symm⟩
  | jump label =>
      have jumps := Instruction.jumpTarget?_of_jump effect
      have moved : (code.select keep).labelIndex? label =
          (code.labelIndex? label).map (rank keep) := by
        apply labelIndex?_select
        intro target defined
        exact (faithful.jump isLive fetched jumps defined).2
      rw [effect] at leftStep rightStep
      cases defined : code.labelIndex? label with
      | some target =>
          rw [defined, Option.map_some] at moved
          rw [Machine.whole_follow_jump semantics defined] at leftStep
          rw [Machine.whole_follow_jump semantics moved] at rightStep
          refine .move target (rank keep target) memory leftStep rightStep ?_
          exact ⟨Nat.le_of_lt (lt_length_of_labelIndex? defined),
            (faithful.jump isLive fetched jumps defined).1, rfl⟩
      | none =>
          rw [defined, Option.map_none] at moved
          rw [Machine.whole_follow_lost semantics defined] at leftStep
          rw [Machine.whole_follow_lost semantics moved] at rightStep
          exact .halt (.lost label) leftStep rightStep
  | stop stop =>
      rw [effect] at leftStep rightStep
      exact .halt stop leftStep rightStep

theorem Faithful.matched (faithful : code.Faithful keep live) (semantics : Semantics)
    (index moved : Nat) (memory : Memory) (related : code.Moved keep live index moved) :
    Machine.Matched (.whole semantics code) (.whole semantics (code.select keep))
      (code.Moved keep live) index moved memory := by
  obtain ⟨bounded, isLive, rfl⟩ := related
  cases fetched : code[index]? with
  | none =>
      have atEnd : index = code.length := by
        have outside := List.getElem?_eq_none_iff.1 fetched
        omega
      subst atEnd
      refine .halt .finished (Machine.whole_step_length semantics code memory) ?_
      rw [← length_select]
      exact Machine.whole_step_length semantics (code.select keep) memory
  | some instruction =>
      cases kept : keep index with
      | true => exact faithful.matched_kept semantics isLive fetched kept memory
      | false =>
          have isSelf := faithful.dropped isLive fetched kept
          have effect : instruction.effect semantics memory = .advance memory :=
            Instruction.effect_of_isSelfAssignment isSelf
          obtain ⟨inside, _⟩ := List.getElem?_eq_some_iff.1 fetched
          have goesOn := Instruction.endsRun_of_advance effect
          have leftStep := Machine.whole_step semantics fetched memory
          rw [effect] at leftStep
          refine .skip (index + 1) leftStep ?_ (Nat.lt_succ_self index) inside
          exact ⟨inside, faithful.next isLive fetched goesOn, (rank_succ_of_drop kept).symm⟩

/-! ### Behaviour -/

/-- The execution of all of some code from an index on, of which the whole store is seen. -/
def execution (semantics : Semantics) (code : Code) (index : Nat) (store : Store) :
    Execution Stop Store :=
  (Machine.whole semantics code).execution id ⟨index, ⟨store, []⟩⟩

/-- Two pieces of code with the same outcomes from every store, both when they are run from the
first instruction and when they are run from the entry function, which both have or neither. -/
structure SameBehaviour (semantics : Semantics) (entry : String) (left right : Code) : Prop where
  fromFirst : ∀ store,
    (left.execution semantics 0 store).SameOutcome (right.execution semantics 0 store)
  fromEntry : ∀ index, left.labelIndex? (.function entry) = some index →
    ∃ moved, right.labelIndex? (.function entry) = some moved ∧ ∀ store,
      (left.execution semantics index store).SameOutcome (right.execution semantics moved store)
  noEntry : left.labelIndex? (.function entry) = none →
    right.labelIndex? (.function entry) = none

variable {semantics : Semantics} {entry : String}

theorem SameBehaviour.refl (code : Code) : SameBehaviour semantics entry code code where
  fromFirst := fun _ => .refl _
  fromEntry := fun index defined => ⟨index, defined, fun _ => .refl _⟩
  noEntry := id

theorem SameBehaviour.trans {first second third : Code}
    (left : SameBehaviour semantics entry first second)
    (right : SameBehaviour semantics entry second third) :
    SameBehaviour semantics entry first third where
  fromFirst := fun store => (left.fromFirst store).trans (right.fromFirst store)
  fromEntry := by
    intro index defined
    obtain ⟨moved, stillDefined, same⟩ := left.fromEntry index defined
    obtain ⟨movedAgain, definedAtLast, sameAgain⟩ := right.fromEntry moved stillDefined
    exact ⟨movedAgain, definedAtLast, fun store => (same store).trans (sameAgain store)⟩
  noEntry := fun missing => right.noEntry (left.noEntry missing)

theorem Faithful.sameBehaviour (faithful : code.Faithful keep live) (first : live 0)
    (entered : ∀ index, code.labelIndex? (.function entry) = some index →
      live index ∧ keep index = true) :
    SameBehaviour semantics entry code (code.select keep) := by
  have moved := labelIndex?_select fun index defined => (entered index defined).2
  refine ⟨?_, ?_, ?_⟩
  · intro store
    exact Machine.Matched.sameOutcome (faithful.matched semantics)
      ⟨Nat.zero_le _, first, (Nat.count_zero _).symm⟩ _
  · intro index defined
    refine ⟨rank keep index, ?_, ?_⟩
    · rw [moved, defined, Option.map_some]
    · intro store
      exact Machine.Matched.sameOutcome (faithful.matched semantics)
        ⟨Nat.le_of_lt (lt_length_of_labelIndex? defined), (entered index defined).1, rfl⟩ _
  · intro missing
    rw [moved, missing, Option.map_none]

/-! ### The three passes -/

theorem faithful_reachable (code : Code) (entry : String) :
    code.Faithful (fun index => decide (index ∈ code.reachable entry))
      (fun index => index < code.length → code.Reaches entry index) where
  next := by
    intro index instruction isLive fetched goesOn inside
    obtain ⟨here, _⟩ := List.getElem?_eq_some_iff.1 fetched
    exact .next (isLive here) fetched goesOn inside
  jump := by
    intro index instruction label target isLive fetched jumps defined
    obtain ⟨here, _⟩ := List.getElem?_eq_some_iff.1 fetched
    have reached : code.Reaches entry target := .jump (isLive here) fetched jumps defined
    exact ⟨fun _ => reached, decide_eq_true (mem_reachable_iff.2 reached)⟩
  dropped := by
    intro index instruction isLive fetched dropped
    obtain ⟨here, _⟩ := List.getElem?_eq_some_iff.1 fetched
    exact absurd (mem_reachable_iff.2 (isLive here)) (of_decide_eq_false dropped)

theorem entered_reachable {index : Nat}
    (defined : code.labelIndex? (.function entry) = some index) :
    (index < code.length → code.Reaches entry index) ∧
      decide (index ∈ code.reachable entry) = true :=
  have reached : code.Reaches entry index := .entered defined
  ⟨fun _ => reached, decide_eq_true (mem_reachable_iff.2 reached)⟩

theorem sameBehaviour_eliminateDead (code : Code) :
    SameBehaviour semantics entry code (code.eliminateDead entry) := by
  rw [eliminateDead_eq_select]
  apply (faithful_reachable code entry).sameBehaviour
  · exact fun inside => .first inside
  · exact fun index defined => entered_reachable defined

theorem isProper_of_labelIndex? {label : Label} {index : Nat}
    (defined : code.labelIndex? label = some index) : code.isProper index = true := by
  rw [isProper, getElem?_of_labelIndex? defined]
  rfl

theorem faithful_isProper (code : Code) : code.Faithful code.isProper fun _ => True where
  next := fun _ _ _ => trivial
  jump := fun _ _ _ defined => ⟨trivial, isProper_of_labelIndex? defined⟩
  dropped := by
    intro index instruction _ fetched dropped
    rw [isProper, fetched] at dropped
    simpa using dropped

theorem sameBehaviour_dropSelfAssignments (code : Code) :
    SameBehaviour semantics entry code code.dropSelfAssignments := by
  rw [dropSelfAssignments_eq_select]
  apply (faithful_isProper code).sameBehaviour trivial
  intro index defined
  exact ⟨trivial, isProper_of_labelIndex? defined⟩

theorem labelIndex?_fold (code : Code) (label : Label) :
    code.fold.labelIndex? label = code.labelIndex? label :=
  labelIndex?_map (fun instruction => instruction.fold_eq_label_iff label) code

theorem step_fold (agrees : semantics.Extends) (code : Code) (state : Machine.State) :
    (Machine.whole semantics code.fold).step state =
      (Machine.whole semantics code).step state := by
  have sameFetch : code.fold[state.pc]? = (code[state.pc]?).map Instruction.fold :=
    List.getElem?_map
  have sameLength : code.fold.length = code.length := List.length_map _
  simp only [Machine.step, Machine.whole, sameFetch, sameLength]
  cases code[state.pc]? with
  | none => rfl
  | some instruction =>
      simp only [Option.map_some, Instruction.effect_fold agrees, Machine.follow, labelIndex?_fold]
      rfl

theorem run_fold (agrees : semantics.Extends) (code : Code) (steps : Nat)
    (state : Machine.State) :
    (Machine.whole semantics code.fold).run steps state =
      (Machine.whole semantics code).run steps state := by
  induction steps generalizing state with
  | zero => rfl
  | succ steps inductionHypothesis =>
      simp only [Machine.run, step_fold agrees]
      cases (Machine.whole semantics code).step state with
      | move next => exact inductionHypothesis next
      | halt stop => rfl

theorem sameBehaviour_fold (agrees : semantics.Extends) (code : Code) :
    SameBehaviour semantics entry code code.fold := by
  have same : ∀ index store,
      (code.execution semantics index store).SameOutcome
        (code.fold.execution semantics index store) := by
    intro index store
    have equal : code.fold.execution semantics index store =
        code.execution semantics index store := by
      funext steps
      simp only [execution, Machine.execution, run_fold agrees]
    rw [equal]
    exact .refl _
  refine ⟨same 0, ?_, ?_⟩
  · intro index defined
    exact ⟨index, (labelIndex?_fold code _).trans defined, same index⟩
  · intro missing
    exact (labelIndex?_fold code _).trans missing

end Code

/-- Every pass but the propagation of literals keeps all outcomes. -/
theorem Pass.sameBehaviour_run {semantics : Semantics} {entry : String}
    (agrees : semantics.Extends) {pass : Pass} (allowed : pass ≠ .constantPropagation)
    (code : Code) : Code.SameBehaviour semantics entry code (pass.run entry code) := by
  cases pass with
  | deadCode => exact code.sameBehaviour_eliminateDead
  | constantPropagation => exact absurd rfl allowed
  | constantFolding => exact Code.sameBehaviour_fold agrees code
  | redundantAssignment => exact code.sameBehaviour_dropSelfAssignments

/-- Any sequence of the passes that do not propagate literals keeps all outcomes of all code, from
every store, under every meaning of the operators that agrees with the values of literals. -/
theorem runAll_sameBehaviour (semantics : Semantics) (agrees : semantics.Extends)
    (entry : String) (code : Code) (passes : List Pass)
    (allowed : ∀ pass ∈ passes, pass ≠ .constantPropagation) :
    Code.SameBehaviour semantics entry code (Optimizer.runAll entry code passes).code := by
  induction passes generalizing code with
  | nil => exact .refl code
  | cons pass rest inductionHypothesis =>
      have now : Code.SameBehaviour semantics entry code (pass.run entry code) :=
        Pass.sameBehaviour_run agrees (allowed pass (List.mem_cons_self ..)) code
      have later := inductionHypothesis (pass.run entry code) fun other member =>
        allowed other (List.mem_cons_of_mem pass member)
      exact now.trans later

/-- The passes take out the unreachable assignment, the unreachable first definition of a label that
is defined twice, and the assignment to itself inside the loop that is left. -/
theorem runAll_sameBehaviour_loop :
    let code : Code :=
      [.goto (.block 0), .label (.block 0), .assign (.slot (.var "x")) .empty,
        .label (.block 0), .assign (.slot (.var "x")) (.slot (.var "x")),
        .binary ⟨0⟩ .div (.slot (.var "x")) (.const 2), .binary ⟨1⟩ .add (.const 1) (.const 2),
        .ifFalseGoto (.slot (.temp ⟨0⟩)) (.block 1), .goto (.block 0), .label (.function "main"),
        .assign .ret .empty]
    let passes : List Pass := [.redundantAssignment, .deadCode, .constantFolding, .deadCode]
    let smaller : Code :=
      [.goto (.block 0), .label (.block 0),
        .binary ⟨0⟩ .div (.slot (.var "x")) (.const 2), .assign (.slot (.temp ⟨1⟩)) (.const 3),
        .ifFalseGoto (.slot (.temp ⟨0⟩)) (.block 1), .goto (.block 0), .label (.function "main"),
        .assign .ret .empty]
    Semantics.Extends evaluate ∧ (∀ pass ∈ passes, pass ≠ .constantPropagation) ∧
      (Optimizer.runAll "main" code passes).code = smaller ∧
      Code.SameBehaviour evaluate "main" code (Optimizer.runAll "main" code passes).code := by
  have agrees : Semantics.Extends evaluate := fun _ _ _ _ known => known
  refine ⟨agrees, by decide, by decide +kernel, ?_⟩
  exact runAll_sameBehaviour evaluate agrees "main" _ _ (by decide)

end MiddleEnd
