import Mathlib.Data.List.NodupEquivFin
import MiddleEnd.Optimizer.Reachability

/-!
Contract: where labels are defined.

`labelIndex?` finds the last definition of a label. The label is defined where it is found, also
the other way round if it is defined only once, and rewriting instructions that are no labels does
not move it. Block labels are counted apart from the names of functions.

Owns: the facts on `labelIndex?` that hold of all code, and the count of block labels.
-/

namespace MiddleEnd

/-- The block label that is defined. -/
def Instruction.block? : Instruction → Option UInt32
  | label (.block index) => some index
  | _ => none

namespace Code

variable {code : Code} {label : Label} {index : Nat}

theorem labelIndex?_cons (instruction : Instruction) (rest : Code) (label : Label) :
    labelIndex? label (instruction :: rest) =
      ((labelIndex? label rest).map (· + 1)).or
        (if instruction = .label label then some 0 else none) := by
  rw [labelIndex?]
  cases labelIndex? label rest <;> rfl

/-- A label is found where it is defined. -/
theorem getElem?_of_labelIndex? (found : code.labelIndex? label = some index) :
    code[index]? = some (.label label) := by
  induction code generalizing index with
  | nil => cases found
  | cons instruction rest inductionHypothesis =>
      rw [labelIndex?_cons] at found
      cases later : labelIndex? label rest with
      | some position =>
          rw [later] at found
          cases found
          exact inductionHypothesis later
      | none =>
          rw [later, Option.map_none, Option.none_or] at found
          split at found
          · rename_i here
            cases found
            rw [here]
            rfl
          · cases found

theorem lt_length_of_labelIndex? (found : code.labelIndex? label = some index) :
    index < code.length := by
  obtain ⟨inside, _⟩ := List.getElem?_eq_some_iff.1 (getElem?_of_labelIndex? found)
  exact inside

/-- The last place at which a label is defined. -/
def LastDefinition (code : Code) (label : Label) (index : Nat) : Prop :=
  code[index]? = some (.label label) ∧ ∀ later, index < later → code[later]? ≠ some (.label label)

theorem labelIndex?_eq_none_iff : code.labelIndex? label = none ↔ .label label ∉ code := by
  induction code with
  | nil => simp [labelIndex?]
  | cons instruction rest inductionHypothesis =>
      rw [labelIndex?_cons, Option.or_eq_none_iff, Option.map_eq_none_iff, inductionHypothesis,
        List.mem_cons, not_or, and_comm]
      by_cases here : instruction = .label label
      · simp [here]
      · simp [here, Ne.symm here]

/-- A label is found at its last definition. -/
theorem lastDefinition_of_labelIndex? (found : code.labelIndex? label = some index) :
    code.LastDefinition label index := by
  refine ⟨getElem?_of_labelIndex? found, ?_⟩
  induction code generalizing index with
  | nil => cases found
  | cons instruction rest inductionHypothesis =>
      intro later after again
      obtain ⟨later, rfl⟩ : ∃ below, later = below + 1 := ⟨later - 1, by omega⟩
      rw [List.getElem?_cons_succ] at again
      rw [labelIndex?_cons] at found
      cases inRest : labelIndex? label rest with
      | some position =>
          rw [inRest, Option.map_some, Option.some_or, Option.some.injEq] at found
          exact inductionHypothesis inRest later (by omega) again
      | none => exact labelIndex?_eq_none_iff.1 inRest (List.mem_of_getElem? again)

theorem labelIndex?_eq_some_iff :
    code.labelIndex? label = some index ↔ code.LastDefinition label index := by
  refine ⟨lastDefinition_of_labelIndex?, ?_⟩
  rintro ⟨here, last⟩
  cases found : code.labelIndex? label with
  | none => exact absurd (List.mem_of_getElem? here) (labelIndex?_eq_none_iff.1 found)
  | some other =>
      obtain ⟨atOther, lastOther⟩ := lastDefinition_of_labelIndex? found
      have notBefore : ¬other < index := fun before => lastOther index before here
      have notAfter : ¬index < other := fun after => last other after atOther
      rw [show other = index by omega]

/-- An instruction that occurs only once stands at one index. -/
theorem index_eq_of_count_le_one {instruction : Instruction} {other : Nat}
    (once : code.count instruction ≤ 1) (here : code[index]? = some instruction)
    (there : code[other]? = some instruction) : index = other := by
  have apart : ∀ early late : Nat, code[early]? = some instruction →
      code[late]? = some instruction → ¬early < late := by
    intro early late atEarly atLate before
    obtain ⟨earlyInside, isEarly⟩ := List.getElem?_eq_some_iff.1 atEarly
    obtain ⟨lateInside, isLate⟩ := List.getElem?_eq_some_iff.1 atLate
    have twice : List.Duplicate instruction code :=
      List.duplicate_iff_exists_distinct_get.2
        ⟨⟨early, earlyInside⟩, ⟨late, lateInside⟩, before, isEarly.symm, isLate.symm⟩
    have counted := List.duplicate_iff_two_le_count.1 twice
    omega
  have notBefore := apart index other here there
  have notAfter := apart other index there here
  omega

/-- A label that is defined only once is found where it is defined. -/
theorem labelIndex?_of_count_le_one (once : code.count (.label label) ≤ 1)
    (here : code[index]? = some (.label label)) : code.labelIndex? label = some index := by
  cases found : code.labelIndex? label with
  | none => exact absurd (List.mem_of_getElem? here) (labelIndex?_eq_none_iff.1 found)
  | some other =>
      rw [index_eq_of_count_le_one once (getElem?_of_labelIndex? found) here]

/-- How often a block label is defined. -/
def labelCount (code : Code) (block : UInt32) : Nat :=
  code.countP fun instruction => instruction.block? = some block

theorem labelCount_append (front back : Code) (block : UInt32) :
    labelCount (front ++ back) block = front.labelCount block + back.labelCount block :=
  List.countP_append

theorem labelCount_eq_count (code : Code) (block : UInt32) :
    code.labelCount block = code.count (.label (.block block)) := by
  apply List.countP_congr
  intro instruction _
  cases instruction with
  | label name => cases name <;> simp [Instruction.block?]
  | assign _ _ => simp [Instruction.block?]
  | binary _ _ _ _ => simp [Instruction.block?]
  | goto _ => simp [Instruction.block?]
  | ifFalseGoto _ _ => simp [Instruction.block?]

/-- Rewriting code keeps the places of a label if it keeps the label's definitions and adds none. -/
theorem labelIndex?_map {rewrite : Instruction → Instruction}
    (sameLabel : ∀ instruction, rewrite instruction = .label label ↔ instruction = .label label)
    (code : Code) : labelIndex? label (code.map rewrite) = labelIndex? label code := by
  induction code with
  | nil => rfl
  | cons instruction rest inductionHypothesis =>
      rw [List.map_cons, labelIndex?_cons, labelIndex?_cons, inductionHypothesis]
      simp only [sameLabel]

end Code

end MiddleEnd
