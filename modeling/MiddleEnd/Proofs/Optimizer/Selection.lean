import Mathlib.Data.Nat.Count
import MiddleEnd.Optimizer.DeadCode
import MiddleEnd.Optimizer.SelfAssignment
import MiddleEnd.Proofs.Code.Labels

/-!
Contract: code of which only some instructions are kept.

Both the elimination of dead code and that of self-assignments keep some instructions and drop the
others. A kept instruction that stood at an index then stands at the number of kept indices below
it, which `Nat.count` counts, and a label whose last definition is kept is found there.

Owns: the selection of instructions by their indices, and where they are found afterwards.
Does not own: which instructions a pass keeps.
-/

namespace MiddleEnd

namespace Code

/-- The instructions of code at the indices that are kept. -/
def select (keep : Nat → Bool) : Code → Code
  | [] => []
  | instruction :: rest =>
      if keep 0 then instruction :: select (fun index => keep (index + 1)) rest
      else select (fun index => keep (index + 1)) rest

/-- How many indices below a given one are kept. -/
abbrev rank (keep : Nat → Bool) (index : Nat) : Nat :=
  Nat.count (fun other => keep other = true) index

theorem rank_succ_of_keep {keep : Nat → Bool} {index : Nat} (kept : keep index = true) :
    rank keep (index + 1) = rank keep index + 1 := by
  rw [rank, Nat.count_succ, if_pos kept]

theorem rank_succ_of_drop {keep : Nat → Bool} {index : Nat} (dropped : keep index = false) :
    rank keep (index + 1) = rank keep index := by
  rw [rank, Nat.count_succ, if_neg (by simp [dropped]), Nat.add_zero]

theorem rank_succ_shift (keep : Nat → Bool) (index : Nat) :
    rank keep (index + 1) =
      rank (fun other => keep (other + 1)) index + (if keep 0 = true then 1 else 0) := by
  rw [rank, Nat.count_succ']

theorem length_select (keep : Nat → Bool) (code : Code) :
    (code.select keep).length = rank keep code.length := by
  induction code generalizing keep with
  | nil => rfl
  | cons instruction rest inductionHypothesis =>
      rw [List.length_cons, rank_succ_shift, select]
      split
      · rw [List.length_cons, inductionHypothesis]
      · rw [inductionHypothesis, Nat.add_zero]

/-- Selected code is what stands at the kept indices, in order. -/
theorem map_some_select (keep : Nat → Bool) (code : Code) :
    (code.select keep).map some = ((List.range code.length).filter keep).map (code[·]?) := by
  induction code generalizing keep with
  | nil => rfl
  | cons instruction rest inductionHypothesis =>
      rw [List.length_cons, List.range_succ_eq_map, List.filter_cons, List.filter_map, select]
      split
      · rw [List.map_cons, List.map_cons, List.map_map, inductionHypothesis]
        rfl
      · rw [List.map_map, inductionHypothesis]
        rfl

/-- A kept instruction is found at the number of kept indices before it. -/
theorem getElem?_select {keep : Nat → Bool} {index : Nat} (kept : keep index = true)
    (code : Code) : (code.select keep)[rank keep index]? = code[index]? := by
  induction code generalizing keep index with
  | nil => rfl
  | cons instruction rest inductionHypothesis =>
      cases index with
      | zero =>
          rw [select, if_pos kept]
          rfl
      | succ index =>
          rw [rank_succ_shift, select]
          split
          · rw [List.getElem?_cons_succ, List.getElem?_cons_succ]
            exact inductionHypothesis kept
          · rw [Nat.add_zero, List.getElem?_cons_succ]
            exact inductionHypothesis kept

/-- A label whose last definition is kept is found where that has moved to. -/
theorem labelIndex?_select {keep : Nat → Bool} {label : Label} {code : Code}
    (kept : ∀ index, code.labelIndex? label = some index → keep index = true) :
    (code.select keep).labelIndex? label = (code.labelIndex? label).map (rank keep) := by
  induction code generalizing keep with
  | nil => rfl
  | cons instruction rest inductionHypothesis =>
      have keptLater : ∀ index, labelIndex? label rest = some index →
          keep (index + 1) = true := by
        intro index later
        apply kept
        rw [labelIndex?_cons, later]
        rfl
      have later := inductionHypothesis keptLater
      rw [labelIndex?_cons, select]
      cases found : labelIndex? label rest with
      | some index =>
          rw [found] at later
          simp only [Option.map_some, Option.some_or]
          rw [rank_succ_shift]
          split
          · rw [labelIndex?_cons, later]
            rfl
          · rw [later]
            rfl
      | none =>
          rw [found] at later
          split
          · rw [labelIndex?_cons, later]
            simp only [Option.map_none, Option.none_or]
            split <;> rfl
          · rename_i dropped
            have notHere : instruction ≠ .label label := by
              intro here
              apply dropped
              apply kept
              rw [labelIndex?_cons, found, if_pos here]
              rfl
            rw [later, if_neg notHere]
            rfl

/-! ### The two eliminations as selections -/

theorem keepFrom_eq_select (kept : List Nat) (index : Nat) (code : Code) :
    keepFrom kept index code = code.select fun offset => decide (index + offset ∈ kept) := by
  induction code generalizing index with
  | nil => rfl
  | cons instruction rest inductionHypothesis =>
      rw [keepFrom, select, inductionHypothesis]
      simp only [Nat.add_zero, decide_eq_true_eq, Nat.add_assoc, Nat.add_comm 1]

theorem eliminateDead_eq_select (code : Code) (entry : String) :
    code.eliminateDead entry = code.select fun index => decide (index ∈ code.reachable entry) := by
  rw [eliminateDead, keepFrom_eq_select]
  simp only [Nat.zero_add]

/-- Whether the instruction at an index is other than a self-assignment. -/
def isProper (code : Code) (index : Nat) : Bool :=
  match code[index]? with
  | some instruction => !instruction.isSelfAssignment
  | none => true

theorem dropSelfAssignments_eq_select (code : Code) :
    code.dropSelfAssignments = code.select code.isProper := by
  induction code with
  | nil => rfl
  | cons instruction rest inductionHypothesis =>
      have shifted : (fun index => isProper (instruction :: rest) (index + 1)) = isProper rest := by
        funext index
        simp [isProper]
      rw [dropSelfAssignments, List.filter_cons, select, shifted, ← inductionHypothesis,
        ← dropSelfAssignments]
      rfl

end Code

end MiddleEnd
