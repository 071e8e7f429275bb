import MiddleEnd.Code.Instruction
import MiddleEnd.Optimizer.Arithmetic

/-!
Contract: computing operations on literals ahead of time.

Owns: the replacement of an operation by its value.
Does not own: which operations have a value (`MiddleEnd.Optimizer.Arithmetic`).
-/

namespace MiddleEnd

/-- The assignment that stands for an operation on literals. Comparisons and logical operations are
left alone, and so is arithmetic without a value. -/
def Instruction.fold? : Instruction → Option Instruction
  | binary dest op (.const left) (.const right) =>
      if op.isArithmetic then
        (evaluate op left right).map fun value => assign (.slot (.temp dest)) (.const value)
      else none
  | _ => none

/-- The instruction, as an assignment of its value if that is known. -/
def Instruction.fold (instruction : Instruction) : Instruction :=
  instruction.fold?.getD instruction

/-- Folding leaves an instruction as it is, or replaces an operation by its value. -/
theorem Instruction.fold_cases (instruction : Instruction) :
    instruction.fold = instruction ∨
      ∃ dest op left right value,
        instruction = binary dest op (.const left) (.const right) ∧
          evaluate op left right = some value ∧
          instruction.fold = assign (.slot (.temp dest)) (.const value) := by
  cases folded : instruction.fold? with
  | none => exact Or.inl (by rw [fold, folded, Option.getD_none])
  | some assignment =>
      right
      unfold fold? at folded
      split at folded
      · rename_i dest op left right
        split at folded
        · obtain ⟨value, known, isAssignment⟩ := Option.map_eq_some_iff.1 folded
          rename_i arithmetic
          refine ⟨dest, op, left, right, value, rfl, known, ?_⟩
          simp [fold, fold?, arithmetic, known]
        · cases folded
      · cases folded

/-- Fold every instruction of code. -/
def Code.fold (code : Code) : Code := code.map Instruction.fold

end MiddleEnd
