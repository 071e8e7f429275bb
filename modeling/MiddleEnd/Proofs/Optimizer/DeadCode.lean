import Mathlib.Order.Bounds.Defs
import MiddleEnd.Proofs.Optimizer.Settled

/-!
Contract: the elimination of dead code keeps exactly what can be reached, and once is enough.

What can be reached is described here without the search: as the least set of indices that holds
the places where code is entered and everything that control goes on to from its members. The search
finds this set in whatever order it takes the pending indices, in a number of turns that is linear
in the length of the code, and the pass keeps what stands there (`eliminateDead_exact`). In what it
keeps everything is reached again, so the pass changes no code that it has made
(`eliminateDead_idempotent`).

Owns: closed sets of indices, and the pass as a function of the least one.
Does not own: the search (`MiddleEnd.Proofs.Optimizer.Reachability`), and reachability after a
selection (`MiddleEnd.Proofs.Optimizer.Settled`).
-/

namespace MiddleEnd

/-! ### Control, instruction by instruction -/

namespace Instruction

theorem jumpTarget?_eq_some_iff {instruction : Instruction} {label : Label} :
    instruction.jumpTarget? = some label ↔
      instruction = .goto label ∨ ∃ cond, instruction = .ifFalseGoto cond label := by
  cases instruction <;> simp [jumpTarget?]

theorem endsRun_eq_false_iff {instruction : Instruction} :
    instruction.endsRun = false ↔
      (∀ label, instruction ≠ .goto label) ∧ ∀ value, instruction ≠ .assign .ret value := by
  cases instruction with
  | assign dest value => cases dest <;> simp [endsRun, isReturn]
  | _ => simp [endsRun, isReturn]

end Instruction

/-! ### Closed sets -/

namespace Code

/-- A set of indices of the code that holds the first one, the last definition of the entry, and
with each of its members the last definition of the label that is jumped to from there, and the next
index unless the member is an unconditional jump or a return. -/
structure ClosedFrom (code : Code) (entry : String) (indices : Set Nat) : Prop where
  inside : ∀ index ∈ indices, index < code.length
  first : 0 < code.length → 0 ∈ indices
  entered : ∀ index, code.LastDefinition (.function entry) index → index ∈ indices
  jump : ∀ index ∈ indices, ∀ label,
    (code[index]? = some (.goto label) ∨ ∃ cond, code[index]? = some (.ifFalseGoto cond label)) →
      ∀ target, code.LastDefinition label target → target ∈ indices
  next : ∀ index ∈ indices, (∀ label, code[index]? ≠ some (.goto label)) →
    (∀ value, code[index]? ≠ some (.assign .ret value)) → index + 1 < code.length →
      index + 1 ∈ indices

variable {code : Code} {entry : String} {index : Nat}

theorem Reaches.lt_length (reached : code.Reaches entry index) : index < code.length := by
  cases reached with
  | first inside => exact inside
  | entered defined => exact lt_length_of_labelIndex? defined
  | jump _ _ _ defined => exact lt_length_of_labelIndex? defined
  | next _ _ _ inside => exact inside

theorem closedFrom_reaches (code : Code) (entry : String) :
    code.ClosedFrom entry {index | code.Reaches entry index} where
  inside := fun _ reached => reached.lt_length
  first := fun inside => .first inside
  entered := fun _ defined => .entered (labelIndex?_eq_some_iff.2 defined)
  jump := by
    intro index reached label jumps target defined
    have found := labelIndex?_eq_some_iff.2 defined
    rcases jumps with isGoto | ⟨cond, isBranch⟩
    · exact .jump reached isGoto rfl found
    · exact .jump reached isBranch rfl found
  next := by
    intro index reached noGoto noReturn inside
    have fetched : code[index]? = some code[index] := List.getElem?_eq_getElem (by omega)
    apply Reaches.next reached fetched _ inside
    rw [Instruction.endsRun_eq_false_iff]
    rw [fetched] at noGoto noReturn
    exact ⟨fun label isGoto => noGoto label (congrArg some isGoto),
      fun value isReturn => noReturn value (congrArg some isReturn)⟩

/-- What is reached lies in every closed set. -/
theorem ClosedFrom.mem_of_reaches {indices : Set Nat} (closed : code.ClosedFrom entry indices)
    (reached : code.Reaches entry index) : index ∈ indices := by
  induction reached with
  | first inside => exact closed.first inside
  | entered defined => exact closed.entered _ (labelIndex?_eq_some_iff.1 defined)
  | @jump index target instruction label _ fetched jumps defined inductionHypothesis =>
      apply closed.jump index inductionHypothesis label _ target
      · exact labelIndex?_eq_some_iff.1 defined
      · rw [fetched]
        rcases Instruction.jumpTarget?_eq_some_iff.1 jumps with isGoto | ⟨cond, isBranch⟩
        · exact Or.inl (congrArg some isGoto)
        · exact Or.inr ⟨cond, congrArg some isBranch⟩
  | @next index instruction _ fetched goesOn inside inductionHypothesis =>
      obtain ⟨noGoto, noReturn⟩ := Instruction.endsRun_eq_false_iff.1 goesOn
      apply closed.next index inductionHypothesis _ _ inside
      · intro label isGoto
        rw [fetched] at isGoto
        exact noGoto label (Option.some.inj isGoto)
      · intro value isReturn
        rw [fetched] at isReturn
        exact noReturn value (Option.some.inj isReturn)

theorem isLeast_reaches (code : Code) (entry : String) :
    IsLeast {indices | code.ClosedFrom entry indices} {index | code.Reaches entry index} :=
  ⟨closedFrom_reaches code entry, fun _ closed _ reached => closed.mem_of_reaches reached⟩

/-! ### What is kept -/

/-- The reachable indices in ascending order. -/
def reachedInOrder (code : Code) (entry : String) : List Nat :=
  (List.range code.length).filter fun index => decide (index ∈ code.reachable entry)

theorem mem_reachedInOrder_iff :
    index ∈ code.reachedInOrder entry ↔ code.Reaches entry index := by
  rw [reachedInOrder, List.mem_filter, List.mem_range, decide_eq_true_eq, mem_reachable_iff]
  exact ⟨fun both => both.2, fun reached => ⟨reached.lt_length, reached⟩⟩

end Code

/-- Dead code is found and dropped exactly. In whatever order the pending indices are taken, a
search ends after a number of turns that is linear in the length of the code, and where it ends it
has seen the least closed set of indices. The search that the pass makes is one of these, and the
pass returns the instructions that stand at the indices of this set, in order. -/
theorem eliminateDead_exact (code : Code) (entry : String) :
    (∀ turns, List.IsChain (Search.Step code) (Search.start code entry :: turns) →
      turns.length ≤ 2 * code.length + 2) ∧
    Search.Occurs code entry ⟨[], code.reachable entry⟩ ∧
    ∃ reached : List Nat,
      IsLeast {indices | code.ClosedFrom entry indices} {index | index ∈ reached} ∧
      (∀ last, Search.Occurs code entry last → (∀ next, ¬Search.Step code last next) →
        ∀ index, index ∈ last.seen ↔ index ∈ reached) ∧
      reached.Pairwise (· < ·) ∧
      (code.eliminateDead entry).map some = reached.map (code[·]?) := by
  refine ⟨?_, Search.occurs_reachable code entry, code.reachedInOrder entry, ?_, ?_, ?_, ?_⟩
  · intro turns chain
    exact Nat.le_trans (Search.length_le_weight chain) (Search.weight_start_le code entry)
  · simp only [Code.mem_reachedInOrder_iff]
    exact code.isLeast_reaches entry
  · intro last occurs stuck index
    have done := Search.pending_eq_nil_of_stuck stuck
    rw [occurs.explores.mem_seen_iff done, Code.mem_reachedInOrder_iff]
  · exact List.pairwise_lt_range.filter _
  · rw [Code.eliminateDead_eq_select, Code.map_some_select]
    rfl

/-- A second elimination of dead code changes nothing: what one elimination leaves is code in which
every index is reached, and such code is exactly what stays as it is. -/
theorem eliminateDead_idempotent (code : Code) (entry : String) :
    (code.eliminateDead entry).eliminateDead entry = code.eliminateDead entry ∧
      (code.eliminateDead entry = code ↔
        ∀ index, index < code.length → code.Reaches entry index) := by
  refine ⟨(code.allReached_eliminateDead entry).eliminateDead_eq, ?_⟩
  constructor
  · intro same
    have all := code.allReached_eliminateDead entry
    rwa [same] at all
  · exact Code.AllReached.eliminateDead_eq

-- The first definition of the label is never reached, and dropping it moves the one that the jump
-- goes to; the jump to a label without a definition leads nowhere.
example :
    Code.eliminateDead
      [.goto (.block 0), .label (.block 0), .assign .param (.const 1), .label (.block 0),
        .goto (.block 9), .assign .ret .empty] "main" =
      [.goto (.block 0), .label (.block 0), .goto (.block 9)] := by
  decide +kernel

end MiddleEnd
