import MiddleEnd.Code.Instruction

/-!
Contract: which instructions can be reached.

Control moves from an instruction to the next one, except after an unconditional jump and after a
return. A jump goes to the last place where its label is defined; a jump to a label that is defined
nowhere goes nowhere. Both arms of a conditional jump count as reachable, whatever the condition.

Owns: the successors of an instruction, and the set of indices that are reached from given ones.
Does not own: what is done with unreachable code (`MiddleEnd.Optimizer.DeadCode`).
-/

namespace MiddleEnd

namespace Code

/-- The last index at which a label is defined. -/
def labelIndex? (label : Label) : Code → Option Nat
  | [] => none
  | instruction :: rest =>
      match labelIndex? label rest with
      | some index => some (index + 1)
      | none => if instruction = .label label then some 0 else none

/-- The indices at which control may continue after an instruction. -/
def successors (code : Code) (index : Nat) : Instruction → List Nat
  | .goto target => (code.labelIndex? target).toList
  | .ifFalseGoto _ target => (code.labelIndex? target).toList ++ [index + 1]
  | .assign .ret _ => []
  | _ => [index + 1]

/-- The number of indices of the code that are not among those seen. -/
def unseen (code : Code) (seen : List Nat) : Nat :=
  (List.range code.length).countP fun index => !seen.contains index

private theorem countP_lt_countP {indices : List Nat} {before after : Nat → Bool} {index : Nat}
    (present : index ∈ indices) (dropped : before index = true) (gone : after index = false)
    (fewer : ∀ other, after other = true → before other = true) :
    indices.countP after < indices.countP before := by
  induction indices with
  | nil => cases present
  | cons head tail inductionHypothesis =>
      have tailLe : tail.countP after ≤ tail.countP before :=
        List.countP_mono_left fun other _ => fewer other
      rcases List.mem_cons.1 present with here | there
      · subst here
        simp only [List.countP_cons, dropped, gone]
        simp
        omega
      · have tailLt := inductionHypothesis there
        by_cases kept : after head = true
        · simp only [List.countP_cons, kept, fewer head kept]
          simp
          omega
        · simp only [List.countP_cons, kept]
          simp
          omega

/-- Seeing an index of the code for the first time leaves fewer indices unseen. -/
theorem unseen_cons_lt {code : Code} {seen : List Nat} {index : Nat}
    (inside : index < code.length) (new : index ∉ seen) :
    code.unseen (index :: seen) < code.unseen seen := by
  refine countP_lt_countP (List.mem_range.2 inside) ?_ ?_ ?_
  · simpa using new
  · simp
  · intro other
    simp

theorem length_successors_le (code : Code) (index : Nat) (instruction : Instruction) :
    (code.successors index instruction).length ≤ 2 := by
  unfold successors
  split
  · exact Nat.le_succ_of_le Option.length_toList_le
  · rw [List.length_append, List.length_singleton]
    exact Nat.succ_le_succ Option.length_toList_le
  · exact Nat.zero_le 2
  · exact Nat.le_succ 1

/-- The indices seen once everything that can be reached from the pending ones has been seen. -/
def explore (code : Code) (pending seen : List Nat) : List Nat :=
  match pending with
  | [] => seen
  | index :: rest =>
      if visited : index ∈ seen then
        code.explore rest seen
      else if inside : index < code.length then
        code.explore (code.successors index code[index] ++ rest) (index :: seen)
      else
        code.explore rest seen
-- A visit adds at most two pending indices and leaves at least one unseen index fewer.
termination_by 2 * code.unseen seen + pending.length
decreasing_by
  · exact Nat.add_lt_add_left (Nat.lt_succ_self _) _
  · have fewerUnseen := unseen_cons_lt inside visited
    have fewAdded := code.length_successors_le index code[index]
    rw [List.length_append, List.length_cons]
    omega
  · exact Nat.add_lt_add_left (Nat.lt_succ_self _) _

/-- The indices at which code may be entered: the first one, and the entry of a function. -/
def entries (code : Code) (entry : String) : List Nat :=
  0 :: (code.labelIndex? (.function entry)).toList

/-- The indices that can be reached. -/
def reachable (code : Code) (entry : String) : List Nat := code.explore (code.entries entry) []

end Code

end MiddleEnd
