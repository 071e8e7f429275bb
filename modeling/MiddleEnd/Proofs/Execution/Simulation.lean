import MiddleEnd.Proofs.Execution.Machine

/-!
Contract: two machines that do the same, although one of them may have more to do.

Places of the left machine are related to places of the right one. From related places and equal
memory, either both halt, or both move, or the left machine moves alone and leaves the memory as it
is. It can do the last only finitely often in a row, since it then moves forward. So every memory
and every way of stopping that is seen on one side is seen on the other.

Owns: the relation between single steps, and that it carries over to outcomes
(`Matched.sameOutcome`).
Does not own: how places are related (`MiddleEnd.Proofs.Optimizer.Selection`).
-/

namespace MiddleEnd

namespace Machine

/-- What the machines do from a place on the left, a place on the right and a common memory. -/
inductive Matched (left right : Machine) (related : Nat → Nat → Prop) (leftPc rightPc : Nat)
    (memory : Memory) : Prop where
  | halt (stop : Stop) (leftHalts : left.step ⟨leftPc, memory⟩ = .halt stop)
      (rightHalts : right.step ⟨rightPc, memory⟩ = .halt stop)
  | move (leftNext rightNext : Nat) (after : Memory)
      (leftMoves : left.step ⟨leftPc, memory⟩ = .move ⟨leftNext, after⟩)
      (rightMoves : right.step ⟨rightPc, memory⟩ = .move ⟨rightNext, after⟩)
      (stillRelated : related leftNext rightNext)
  | skip (leftNext : Nat) (leftMoves : left.step ⟨leftPc, memory⟩ = .move ⟨leftNext, memory⟩)
      (stillRelated : related leftNext rightPc) (forward : leftPc < leftNext)
      (bounded : leftNext ≤ left.last)

namespace Matched

variable {left right : Machine} {related : Nat → Nat → Prop} {Seen : Type} {view : Store → Seen}

theorem exists_right_snapshot
    (matched : ∀ leftPc rightPc memory, related leftPc rightPc →
      Matched left right related leftPc rightPc memory)
    (steps : Nat) {leftPc rightPc : Nat} {memory : Memory} (here : related leftPc rightPc) :
    ∃ other, right.execution view ⟨rightPc, memory⟩ other =
      left.execution view ⟨leftPc, memory⟩ steps := by
  induction steps generalizing leftPc rightPc memory with
  | zero => exact ⟨0, rfl⟩
  | succ steps inductionHypothesis =>
      unfold execution at inductionHypothesis ⊢
      cases matched leftPc rightPc memory here with
      | halt stop leftHalts rightHalts =>
          refine ⟨1, ?_⟩
          rw [run_of_halt leftHalts, run_of_halt rightHalts]
          rfl
      | move leftNext rightNext after leftMoves rightMoves stillRelated =>
          obtain ⟨other, same⟩ := inductionHypothesis stillRelated
          refine ⟨other + 1, ?_⟩
          rw [run_of_move leftMoves, run_of_move rightMoves]
          exact same
      | skip leftNext leftMoves stillRelated forward bounded =>
          obtain ⟨other, same⟩ := inductionHypothesis stillRelated
          refine ⟨other, ?_⟩
          rw [run_of_move leftMoves]
          exact same

theorem exists_left_snapshot
    (matched : ∀ leftPc rightPc memory, related leftPc rightPc →
      Matched left right related leftPc rightPc memory)
    (steps : Nat) {leftPc rightPc : Nat} {memory : Memory} (here : related leftPc rightPc) :
    ∃ other, left.execution view ⟨leftPc, memory⟩ other =
      right.execution view ⟨rightPc, memory⟩ steps := by
  induction steps generalizing leftPc rightPc memory with
  | zero => exact ⟨0, rfl⟩
  | succ steps inductionHypothesis =>
      -- The inner induction passes over the steps that the left machine does alone.
      induction gap : left.last - leftPc using Nat.strongRecOn generalizing leftPc with
      | ind gap skips =>
          unfold execution at inductionHypothesis skips ⊢
          cases matched leftPc rightPc memory here with
          | halt stop leftHalts rightHalts =>
              refine ⟨1, ?_⟩
              rw [run_of_halt leftHalts, run_of_halt rightHalts]
              rfl
          | move leftNext rightNext after leftMoves rightMoves stillRelated =>
              obtain ⟨other, same⟩ := inductionHypothesis stillRelated
              refine ⟨other + 1, ?_⟩
              rw [run_of_move leftMoves, run_of_move rightMoves]
              exact same
          | skip leftNext leftMoves stillRelated forward bounded =>
              obtain ⟨other, same⟩ :=
                skips (left.last - leftNext) (by omega) stillRelated rfl
              refine ⟨other + 1, ?_⟩
              rw [run_of_move leftMoves]
              exact same

/-- Machines whose steps match have the same outcomes from related places. -/
theorem sameOutcome
    (matched : ∀ leftPc rightPc memory, related leftPc rightPc →
      Matched left right related leftPc rightPc memory)
    {leftPc rightPc : Nat} (here : related leftPc rightPc) (memory : Memory) :
    (left.execution view ⟨leftPc, memory⟩).SameOutcome
      (right.execution view ⟨rightPc, memory⟩) := by
  apply Execution.sameOutcome_of_covered
  · apply Execution.coveredBy_of_snapshots
    intro steps
    exact exists_right_snapshot matched steps here
  · apply Execution.coveredBy_of_snapshots
    intro steps
    exact exists_left_snapshot matched steps here

end Matched

end Machine

end MiddleEnd
