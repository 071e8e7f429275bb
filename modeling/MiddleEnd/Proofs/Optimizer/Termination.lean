import Mathlib.Data.Seq.Basic
import Mathlib.Data.Set.Card
import Mathlib.Order.Interval.Finset.Nat
import MiddleEnd.Proofs.Optimizer.Settled

/-!
Contract: optimizing comes to an end.

The optimizer is not idempotent: folding makes literals that a second run propagates, and these let
it fold more. But there is only so much to do with an instruction. It can be dropped, each slot that
it reads can be replaced by a literal, and an operation can be replaced by its value. The workload
of code counts what is left of this, at most four for an instruction. A pass that changes code
lowers its workload (`Pass.simplifies_run`), so passes in any order and number, even infinitely
many, change code at most as often as the workload says, and optimizing again and again reaches code
that stays as it is (`optimize_terminates`).

Owns: the workload of code, and that every pass lowers it or does nothing.
Does not own: what is left to do after one run (`MiddleEnd.Proofs.Optimizer.Settled`).
-/

namespace MiddleEnd

/-! ### Workload -/

/-- One for a slot, which can be replaced by a literal. -/
def Operand.workload : Operand → Nat
  | slot _ => 1
  | const _ => 0
  | empty => 0

/-- How often passes can still change the instruction, its removal included. -/
def Instruction.workload : Instruction → Nat
  | assign _ value => value.workload + 1
  | binary _ _ left right => left.workload + right.workload + 2
  | label _ => 1
  | goto _ => 1
  | ifFalseGoto cond _ => cond.workload + 1

/-- How often passes can still change the code. -/
def Code.workload : Code → Nat
  | [] => 0
  | instruction :: rest => instruction.workload + workload rest

theorem Operand.workload_le_one (operand : Operand) : operand.workload ≤ 1 := by
  cases operand <;> simp [workload]

theorem Instruction.workload_pos (instruction : Instruction) : 0 < instruction.workload := by
  cases instruction <;> simp [workload]

theorem Instruction.workload_le_four (instruction : Instruction) : instruction.workload ≤ 4 := by
  cases instruction with
  | assign dest value =>
      have valueLe := value.workload_le_one
      rw [workload]
      omega
  | binary dest op left right =>
      have leftLe := left.workload_le_one
      have rightLe := right.workload_le_one
      rw [workload]
      omega
  | label name => simp [workload]
  | goto target => simp [workload]
  | ifFalseGoto cond target =>
      have condLe := cond.workload_le_one
      rw [workload]
      omega

theorem Code.workload_le (code : Code) : code.workload ≤ 4 * code.length := by
  induction code with
  | nil => rfl
  | cons instruction rest inductionHypothesis =>
      have firstLe := instruction.workload_le_four
      rw [workload, List.length_cons]
      omega

/-! ### One pass -/

/-- The new instruction is the old one or has less workload. -/
def Instruction.Simplifies (old new : Instruction) : Prop :=
  new = old ∨ new.workload < old.workload

/-- The new code is the old one or has less workload. -/
def Code.Simplifies (old new : Code) : Prop := new = old ∨ new.workload < old.workload

theorem Operand.substitute_eq_or_lt (known : Literals) (operand : Operand) :
    operand.substitute known = operand ∨
      (operand.substitute known).workload < operand.workload := by
  cases operand with
  | const value => exact Or.inl rfl
  | empty => exact Or.inl rfl
  | slot place =>
      rw [substitute]
      cases known.lookup place with
      | none => exact Or.inl rfl
      | some value => exact Or.inr Nat.zero_lt_one

namespace Instruction

theorem simplifies_substitute (known : Literals) (instruction : Instruction) :
    instruction.Simplifies (instruction.substitute known) := by
  cases instruction with
  | assign dest value =>
      rcases value.substitute_eq_or_lt known with same | less
      · exact Or.inl (by rw [substitute, same])
      · exact Or.inr (Nat.add_lt_add_right less 1)
  | binary dest op left right =>
      rcases left.substitute_eq_or_lt known with sameLeft | lessLeft <;>
        rcases right.substitute_eq_or_lt known with sameRight | lessRight
      · exact Or.inl (by rw [substitute, sameLeft, sameRight])
      all_goals
        right
        simp only [substitute, workload, *]
        omega
  | label name => exact Or.inl rfl
  | goto target => exact Or.inl rfl
  | ifFalseGoto cond target =>
      rcases cond.substitute_eq_or_lt known with same | less
      · exact Or.inl (by rw [substitute, same])
      · exact Or.inr (Nat.add_lt_add_right less 1)

theorem simplifies_fold (instruction : Instruction) :
    instruction.Simplifies instruction.fold := by
  rcases instruction.fold_cases with same | ⟨_, _, _, _, _, rfl, _, folded⟩
  · exact Or.inl same
  · right
    rw [folded]
    simp [workload, Operand.workload]

end Instruction

namespace Code

variable {old new final : Code}

theorem Simplifies.le (simplifies : old.Simplifies new) : new.workload ≤ old.workload := by
  rcases simplifies with same | less
  · rw [same]
  · exact less.le

theorem Simplifies.trans (first : old.Simplifies new) (second : new.Simplifies final) :
    old.Simplifies final := by
  rcases first with rfl | less
  · exact second
  · exact Or.inr (lt_of_le_of_lt second.le less)

/-- Code is simplified by simplifying its first instruction and the rest. -/
theorem Simplifies.cons {instruction next : Instruction} (first : instruction.Simplifies next)
    (rest : old.Simplifies new) : Simplifies (instruction :: old) (next :: new) := by
  have restLe := rest.le
  rcases first with rfl | less
  · rcases rest with rfl | restLess
    · exact Or.inl rfl
    · exact Or.inr (Nat.add_lt_add_left restLess _)
  · exact Or.inr (Nat.add_lt_add_of_lt_of_le less restLe)

/-- Code is simplified by dropping instructions. -/
theorem simplifies_of_sublist (sublist : new.Sublist old) : old.Simplifies new := by
  induction sublist with
  | slnil => exact Or.inl rfl
  | @cons _ rest instruction _ inductionHypothesis =>
      right
      have restLe := inductionHypothesis.le
      have dropped := instruction.workload_pos
      rw [workload]
      omega
  | cons_cons instruction _ inductionHypothesis => exact .cons (Or.inl rfl) inductionHypothesis

theorem simplifies_propagateFrom (known : Literals) (code : Code) :
    code.Simplifies (code.propagateFrom known) := by
  induction code generalizing known with
  | nil => exact Or.inl rfl
  | cons instruction rest inductionHypothesis =>
      exact .cons (instruction.simplifies_substitute known) (inductionHypothesis _)

theorem simplifies_fold (code : Code) : code.Simplifies code.fold := by
  induction code with
  | nil => exact Or.inl rfl
  | cons instruction rest inductionHypothesis =>
      exact .cons instruction.simplifies_fold inductionHypothesis

end Code

theorem Pass.simplifies_run (pass : Pass) (entry : String) (code : Code) :
    code.Simplifies (pass.run entry code) := by
  cases pass with
  | deadCode => exact Code.simplifies_of_sublist (code.eliminateDead_sublist entry)
  | constantPropagation => exact code.simplifies_propagateFrom []
  | constantFolding => exact code.simplifies_fold
  | redundantAssignment => exact Code.simplifies_of_sublist List.filter_sublist

/-! ### Many passes -/

namespace Optimizer

theorem simplifies_runAll (entry : String) (code : Code) (passes : List Pass) :
    code.Simplifies (runAll entry code passes).code := by
  induction passes generalizing code with
  | nil => exact Or.inl rfl
  | cons pass rest inductionHypothesis =>
      exact (pass.simplifies_run entry code).trans (inductionHypothesis (pass.run entry code))

/-- A finite or infinite sequence of passes. -/
abbrev Schedule := Stream'.Seq Pass

/-- The code before the pass at an index of a schedule. -/
def codeBefore (entry : String) (code : Code) (schedule : Schedule) (index : Nat) : Code :=
  (runAll entry code (schedule.take index)).code

/-- The indices of a schedule at which a pass returns other code than it was given. -/
def changesAt (entry : String) (code : Code) (schedule : Schedule) : Set Nat :=
  {index | ∃ pass, schedule.get? index = some pass ∧
    pass.run entry (codeBefore entry code schedule index) ≠ codeBefore entry code schedule index}

theorem take_succ_schedule (schedule : Schedule) (index : Nat) :
    schedule.take (index + 1) = schedule.take index ++ (schedule.get? index).toList := by
  have front : (schedule.take (index + 1)).take index = schedule.take index := by
    apply List.ext_getElem?
    intro place
    rw [List.getElem?_take, Stream'.Seq.getElem?_take, Stream'.Seq.getElem?_take]
    grind
  have last : (schedule.take (index + 1))[index]? = schedule.get? index := by
    rw [Stream'.Seq.getElem?_take, if_pos index.lt_succ_self]
  rw [← front, ← last, ← List.take_add_one, List.take_of_length_le]
  exact Stream'.Seq.length_take_le

section Schedule

variable (entry : String) (code : Code) (schedule : Schedule)

theorem codeBefore_succ (index : Nat) :
    codeBefore entry code schedule (index + 1) =
      (runAll entry (codeBefore entry code schedule index)
        (schedule.get? index).toList).code := by
  rw [codeBefore, take_succ_schedule, runAll_append, codeBefore]

theorem antitone_workload :
    Antitone fun index => (codeBefore entry code schedule index).workload := by
  apply antitone_nat_of_succ_le
  intro index
  show (codeBefore entry code schedule (index + 1)).workload ≤ _
  rw [codeBefore_succ]
  exact (simplifies_runAll entry _ _).le

theorem workload_lt_of_changesAt {index : Nat} (changes : index ∈ changesAt entry code schedule) :
    (codeBefore entry code schedule (index + 1)).workload <
      (codeBefore entry code schedule index).workload := by
  obtain ⟨pass, isNext, changed⟩ := changes
  rw [codeBefore_succ, isNext]
  exact (pass.simplifies_run entry _).resolve_left changed

/-- No two changes happen at the same workload, so there are at most as many as it counts. -/
theorem encard_changesAt_le : (changesAt entry code schedule).encard ≤ code.workload := by
  let workloadAt := fun index => (codeBefore entry code schedule index).workload
  have falls : Antitone workloadAt := antitone_workload entry code schedule
  have within : Set.MapsTo workloadAt (changesAt entry code schedule)
      (Set.Ioc 0 code.workload) := by
    intro index changes
    refine ⟨?_, falls index.zero_le⟩
    exact lt_of_le_of_lt (Nat.zero_le _) (workload_lt_of_changesAt entry code schedule changes)
  have apart : Set.InjOn workloadAt (changesAt entry code schedule) := by
    have lower {first second : Nat} (changes : first ∈ changesAt entry code schedule)
        (later : first < second) : workloadAt second < workloadAt first :=
      lt_of_le_of_lt (falls later) (workload_lt_of_changesAt entry code schedule changes)
    intro first firstChanges second secondChanges same
    rcases Nat.lt_trichotomy first second with before | here | after
    · exact absurd same (lower firstChanges before).ne'
    · exact here
    · exact absurd same (lower secondChanges after).ne
  calc (changesAt entry code schedule).encard
      ≤ (Set.Ioc 0 code.workload).encard := Set.encard_le_encard_of_injOn within apart
    _ = code.workload := by
        rw [← Finset.coe_Ioc, Set.encard_coe_eq_coe_finsetCard, Nat.card_Ioc, Nat.sub_zero]

end Schedule

/-- Repeated optimization stops changing code after at most as many runs as the workload says. -/
theorem exists_fixed_iterate (entry : String) (code : Code) :
    ∃ runs ≤ code.workload, ∃ final,
      (fun current => (optimize entry current).code)^[runs] code = final ∧
        (optimize entry final).code = final := by
  -- A run that changes the code leaves less workload for the runs after it.
  induction left : code.workload using Nat.strong_induction_on generalizing code with
  | h workload inductionHypothesis =>
      rcases simplifies_runAll entry code Pass.pipeline with fixed | less
      · exact ⟨0, Nat.zero_le _, code, rfl, fixed⟩
      · obtain ⟨runs, few, final, reached, fixed⟩ :=
          inductionHypothesis _ (left ▸ less) _ rfl
        exact ⟨runs + 1, by omega, final, reached, fixed⟩

end Optimizer

/-- However passes are scheduled, at most four times as many of them as the code has instructions
return other code than they were given. Repeated optimization reaches code that it leaves as it is
after at most this many runs, and so without any run if there are no instructions. -/
theorem optimize_terminates (entry : String) (code : Code) :
    (∀ schedule : Optimizer.Schedule,
      (Optimizer.changesAt entry code schedule).encard ≤ (4 * code.length : Nat)) ∧
    ∃ runs ≤ 4 * code.length, ∃ final,
      (fun current => (Optimizer.optimize entry current).code)^[runs] code = final ∧
        (Optimizer.optimize entry final).code = final := by
  have bound := code.workload_le
  refine ⟨?_, ?_⟩
  · intro schedule
    exact (Optimizer.encard_changesAt_le entry code schedule).trans (Nat.cast_le.2 bound)
  · obtain ⟨runs, few, final, reached, fixed⟩ := Optimizer.exists_fixed_iterate entry code
    exact ⟨runs, few.trans bound, final, reached, fixed⟩

end MiddleEnd
