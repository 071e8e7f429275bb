import MiddleEnd.Proofs.Optimizer.Preservation
import MiddleEnd.Proofs.Optimizer.WellFormed

/-!
Contract: one run of the optimizer leaves nothing to do for three of its passes.

The elimination of dead code runs first, so what the passes after it do must not make anything
unreachable. Propagation and folding change nothing that control sees (`Instruction.skeleton`). The
elimination of self-assignments moves instructions, and control passes through what it drops. So in
the final code everything is reached, every operation with a value has been replaced by it, and no
slot is assigned to itself (`settled_optimize`). The propagation of literals alone may find more to
do, namely the literals that folding has made (`optimize_settled_iff`).

Owns: settled code, and that the optimizer settles all code.
Does not own: faithful selections (`MiddleEnd.Proofs.Optimizer.Preservation`).
-/

namespace MiddleEnd

/-! ### What control sees -/

/-- The instruction without what it reads and computes. -/
def Instruction.skeleton : Instruction → Instruction
  | assign .ret _ => assign .ret .empty
  | assign _ _ => assign .param .empty
  | binary _ _ _ _ => assign .param .empty
  | label name => label name
  | goto target => goto target
  | ifFalseGoto _ target => ifFalseGoto .empty target

namespace Instruction

theorem skeleton_eq_label_iff (instruction : Instruction) (name : Label) :
    instruction.skeleton = .label name ↔ instruction = .label name := by
  cases instruction with
  | assign dest value => cases dest <;> simp [skeleton]
  | _ => simp [skeleton]

theorem jumpTarget?_skeleton (instruction : Instruction) :
    instruction.skeleton.jumpTarget? = instruction.jumpTarget? := by
  cases instruction with
  | assign dest value => cases dest <;> rfl
  | _ => rfl

theorem endsRun_skeleton (instruction : Instruction) :
    instruction.skeleton.endsRun = instruction.endsRun := by
  cases instruction with
  | assign dest value => cases dest <;> rfl
  | _ => rfl

theorem skeleton_substitute (known : Literals) (instruction : Instruction) :
    (instruction.substitute known).skeleton = instruction.skeleton := by
  cases instruction with
  | assign dest value => cases dest <;> rfl
  | _ => rfl

theorem skeleton_fold (instruction : Instruction) :
    instruction.fold.skeleton = instruction.skeleton := by
  rcases instruction.fold_cases with same | ⟨_, _, _, _, _, rfl, _, folded⟩
  · rw [same]
  · rw [folded]
    rfl

theorem jumpTarget?_of_isSelfAssignment {instruction : Instruction}
    (isSelf : instruction.isSelfAssignment = true) : instruction.jumpTarget? = none := by
  match instruction, isSelf with
  | assign _ _, _ => rfl

theorem fold_fold (instruction : Instruction) : instruction.fold.fold = instruction.fold := by
  rcases instruction.fold_cases with same | ⟨_, _, _, _, _, _, _, folded⟩
  · rw [same, same]
  · rw [folded]
    rfl

end Instruction

namespace Code

variable {code next : Code} {entry : String}

theorem skeleton_propagateFrom (known : Literals) (code : Code) :
    (code.propagateFrom known).map Instruction.skeleton = code.map Instruction.skeleton := by
  induction code generalizing known with
  | nil => rfl
  | cons instruction rest inductionHypothesis =>
      simp only [propagateFrom, List.map_cons, Instruction.skeleton_substitute,
        inductionHypothesis]

theorem skeleton_map_fold (code : Code) :
    code.fold.map Instruction.skeleton = code.map Instruction.skeleton := by
  rw [fold, List.map_map]
  apply List.map_congr_left
  intro instruction _
  exact instruction.skeleton_fold

theorem labelIndex?_skeleton (code : Code) (label : Label) :
    labelIndex? label (code.map Instruction.skeleton) = code.labelIndex? label :=
  labelIndex?_map (fun instruction => instruction.skeleton_eq_label_iff label) code

theorem length_eq_of_skeleton
    (same : next.map Instruction.skeleton = code.map Instruction.skeleton) :
    next.length = code.length := by
  simpa using congrArg List.length same

theorem Reaches.of_skeleton {index : Nat} (reached : code.Reaches entry index)
    (same : next.map Instruction.skeleton = code.map Instruction.skeleton) :
    next.Reaches entry index := by
  have sameLength := length_eq_of_skeleton same
  have sameLabels (label : Label) : next.labelIndex? label = code.labelIndex? label := by
    rw [← labelIndex?_skeleton, same, labelIndex?_skeleton]
  have sameFetch {place : Nat} {instruction : Instruction}
      (fetched : code[place]? = some instruction) :
      ∃ other, next[place]? = some other ∧ other.skeleton = instruction.skeleton := by
    have both := congrArg (fun skeletons => skeletons[place]?) same
    rwa [List.getElem?_map, List.getElem?_map, fetched, Option.map_some,
      Option.map_eq_some_iff] at both
  induction reached with
  | first inside => exact .first (sameLength ▸ inside)
  | entered defined => exact .entered ((sameLabels _).trans defined)
  | @jump place target instruction label _ fetched jumps defined inductionHypothesis =>
      obtain ⟨other, otherFetched, sameControl⟩ := sameFetch fetched
      have otherJumps : other.jumpTarget? = some label := by
        rw [← Instruction.jumpTarget?_skeleton, sameControl, Instruction.jumpTarget?_skeleton,
          jumps]
      exact .jump inductionHypothesis otherFetched otherJumps ((sameLabels _).trans defined)
  | @next place instruction _ fetched goesOn inside inductionHypothesis =>
      obtain ⟨other, otherFetched, sameControl⟩ := sameFetch fetched
      have otherGoesOn : other.endsRun = false := by
        rw [← Instruction.endsRun_skeleton, sameControl, Instruction.endsRun_skeleton, goesOn]
      exact .next inductionHypothesis otherFetched otherGoesOn (sameLength ▸ inside)

/-! ### Code that is reached everywhere -/

/-- Every index of the code is reached. -/
def AllReached (entry : String) (code : Code) : Prop :=
  ∀ index, index < code.length → code.Reaches entry index

theorem AllReached.of_skeleton (all : code.AllReached entry)
    (same : next.map Instruction.skeleton = code.map Instruction.skeleton) :
    next.AllReached entry := by
  intro index inside
  exact (all index (length_eq_of_skeleton same ▸ inside)).of_skeleton same

/-- A reached index of the code is live, and the instruction that stands there after a faithful
selection, which is the first kept one from there on, is reached again. -/
theorem Faithful.reaches_select {keep : Nat → Bool} {live : Nat → Prop}
    (faithful : code.Faithful keep live) (first : live 0)
    (entered : ∀ index, code.labelIndex? (.function entry) = some index →
      live index ∧ keep index = true)
    {index : Nat} (reached : code.Reaches entry index) :
    live index ∧ (rank keep index < (code.select keep).length →
      (code.select keep).Reaches entry (rank keep index)) := by
  induction reached with
  | first _ => exact ⟨first, fun inside => .first inside⟩
  | @entered index defined =>
      have moved := labelIndex?_select fun index defined => (entered index defined).2
      rw [defined, Option.map_some] at moved
      exact ⟨(entered index defined).1, fun _ => .entered moved⟩
  | @jump index target instruction label _ fetched jumps defined inductionHypothesis =>
      obtain ⟨isLive, stillReached⟩ := inductionHypothesis
      refine ⟨(faithful.jump isLive fetched jumps defined).1, fun _ => ?_⟩
      have kept : keep index = true := by
        by_contra dropped
        have isSelf := faithful.dropped isLive fetched (Bool.not_eq_true _ ▸ dropped)
        rw [Instruction.jumpTarget?_of_isSelfAssignment isSelf] at jumps
        cases jumps
      have stillFetched := (getElem?_select kept code).trans fetched
      have moved := labelIndex?_select fun _ defined =>
        (faithful.jump isLive fetched jumps defined).2
      rw [defined, Option.map_some] at moved
      obtain ⟨inside, _⟩ := List.getElem?_eq_some_iff.1 stillFetched
      exact .jump (stillReached inside) stillFetched jumps moved
  | @next index instruction _ fetched goesOn _ inductionHypothesis =>
      obtain ⟨isLive, stillReached⟩ := inductionHypothesis
      refine ⟨faithful.next isLive fetched goesOn, ?_⟩
      by_cases kept : keep index = true
      · have stillFetched := (getElem?_select kept code).trans fetched
        obtain ⟨inside, _⟩ := List.getElem?_eq_some_iff.1 stillFetched
        rw [rank_succ_of_keep kept]
        exact .next (stillReached inside) stillFetched goesOn
      · rw [rank_succ_of_drop (Bool.not_eq_true _ ▸ kept)]
        exact stillReached

/-- A faithful selection is reached everywhere if everything that it keeps was reached. -/
theorem Faithful.allReached_select {keep : Nat → Bool} {live : Nat → Prop}
    (faithful : code.Faithful keep live) (first : live 0)
    (entered : ∀ index, code.labelIndex? (.function entry) = some index →
      live index ∧ keep index = true)
    (reached : ∀ index, index < code.length → keep index = true → code.Reaches entry index) :
    (code.select keep).AllReached entry := by
  intro moved inside
  have here : (code.select keep)[moved]? = some (code.select keep)[moved] :=
    List.getElem?_eq_getElem inside
  obtain ⟨index, kept, rfl, fetched⟩ := exists_of_getElem?_select here
  obtain ⟨wasInside, _⟩ := List.getElem?_eq_some_iff.1 fetched
  exact (faithful.reaches_select first entered (reached index wasInside kept)).2 inside

theorem allReached_eliminateDead (code : Code) (entry : String) :
    (code.eliminateDead entry).AllReached entry := by
  rw [eliminateDead_eq_select]
  apply (faithful_reachable code entry).allReached_select
  · exact fun inside => .first inside
  · exact fun index defined => entered_reachable defined
  · intro index _ kept
    exact mem_reachable_iff.1 (of_decide_eq_true kept)

theorem AllReached.dropSelfAssignments (all : code.AllReached entry) :
    code.dropSelfAssignments.AllReached entry := by
  rw [dropSelfAssignments_eq_select]
  apply (faithful_isProper code).allReached_select trivial
  · intro index defined
    exact ⟨trivial, isProper_of_labelIndex? defined⟩
  · intro index inside _
    exact all index inside

theorem AllReached.eliminateDead_eq (all : code.AllReached entry) :
    code.eliminateDead entry = code := by
  rw [eliminateDead_eq_select]
  apply (select_sublist _ code).eq_of_length
  rw [length_select, rank, Nat.count_of_forall]
  intro index inside
  exact decide_eq_true (mem_reachable_iff.2 (all index inside))

/-! ### Settled code -/

/-- Code in which everything is reached, folded and other than a self-assignment. -/
structure Settled (entry : String) (code : Code) : Prop where
  reached : code.AllReached entry
  folded : ∀ instruction ∈ code, instruction.fold = instruction
  proper : ∀ instruction ∈ code, instruction.isSelfAssignment = false

theorem Settled.run (settled : code.Settled entry) {pass : Pass}
    (other : pass ≠ .constantPropagation) : pass.run entry code = code := by
  cases pass with
  | deadCode => exact settled.reached.eliminateDead_eq
  | constantPropagation => exact absurd rfl other
  | constantFolding => exact (List.map_congr_left settled.folded).trans (List.map_id code)
  | redundantAssignment =>
      show code.filter _ = code
      rw [List.filter_eq_self]
      intro instruction member
      rw [settled.proper instruction member, Bool.not_false]

end Code

namespace Optimizer

theorem settled_optimize (entry : String) (code : Code) :
    (optimize entry code).code.Settled entry := by
  let reached := code.eliminateDead entry
  have final : (optimize entry code).code = reached.propagate.fold.dropSelfAssignments := rfl
  have sameSkeleton : reached.propagate.fold.map Instruction.skeleton =
      reached.map Instruction.skeleton :=
    (Code.skeleton_map_fold _).trans (Code.skeleton_propagateFrom [] reached)
  rw [final]
  refine ⟨?_, ?_, ?_⟩
  · exact ((Code.allReached_eliminateDead code entry).of_skeleton sameSkeleton).dropSelfAssignments
  · intro instruction member
    obtain ⟨before, _, rfl⟩ := List.mem_map.1 (List.mem_of_mem_filter member)
    exact before.fold_fold
  · intro instruction member
    simpa using List.of_mem_filter member

theorem runAll_append (entry : String) (code : Code) (front back : List Pass) :
    (runAll entry code (front ++ back)).code =
      (runAll entry (runAll entry code front).code back).code := by
  induction front generalizing code with
  | nil => rfl
  | cons pass rest inductionHypothesis => exact inductionHypothesis (pass.run entry code)

theorem runAll_of_fixed {entry : String} {code : Code} {passes : List Pass}
    (fixed : ∀ pass ∈ passes, pass.run entry code = code) :
    (runAll entry code passes).code = code := by
  induction passes with
  | nil => rfl
  | cons pass rest inductionHypothesis =>
      rw [runAll, fixed pass (List.mem_cons_self ..)]
      exact inductionHypothesis fun other member => fixed other (List.mem_cons_of_mem pass member)

theorem runAll_optimize {passes : List Pass} (without : .constantPropagation ∉ passes)
    (entry : String) (code : Code) :
    (runAll entry (optimize entry code).code passes).code = (optimize entry code).code := by
  apply runAll_of_fixed
  intro pass member
  apply (settled_optimize entry code).run
  intro isPropagation
  exact without (isPropagation ▸ member)

/-- Propagation may still change optimized code, after which no pass does: folding a sum makes a
literal when propagation is done. -/
theorem exists_late_literal :
    ∃ entry code, (optimize entry code).code.propagate ≠ (optimize entry code).code ∧
      ∀ pass : Pass, pass.run entry (optimize entry code).code.propagate =
        (optimize entry code).code.propagate := by
  let sum : Code :=
    [.binary ⟨0⟩ .add (.const 2) (.const 3), .assign (.slot (.var "x")) (.slot (.temp ⟨0⟩))]
  have optimized : (optimize "main" sum).code =
      [.assign (.slot (.temp ⟨0⟩)) (.const 5),
        .assign (.slot (.var "x")) (.slot (.temp ⟨0⟩))] := by decide +kernel
  refine ⟨"main", sum, ?_, ?_⟩
  · rw [optimized]
    decide
  · intro pass
    rw [optimized]
    cases pass <;> decide +kernel

end Optimizer

/-- The sequences of passes, in any order and number, that leave all optimized code as it is are
exactly those that do not propagate literals. -/
theorem optimize_settled_iff (passes : List Pass) :
    (∀ entry code, (Optimizer.runAll entry (Optimizer.optimize entry code).code passes).code =
        (Optimizer.optimize entry code).code) ↔
      Pass.constantPropagation ∉ passes := by
  constructor
  · intro unchanged member
    -- Up to the first propagation the code stays as it is, and from then on as that leaves it.
    obtain ⟨front, back, rfl, without⟩ := List.eq_append_cons_of_mem member
    obtain ⟨entry, code, changed, done⟩ := Optimizer.exists_late_literal
    have same := unchanged entry code
    rw [Optimizer.runAll_append, Optimizer.runAll_optimize without] at same
    have final : (Optimizer.runAll entry (Optimizer.optimize entry code).code.propagate back).code =
        (Optimizer.optimize entry code).code.propagate :=
      Optimizer.runAll_of_fixed fun pass _ => done pass
    exact changed (final.symm.trans same)
  · exact Optimizer.runAll_optimize

end MiddleEnd
