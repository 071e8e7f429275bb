import Mathlib.Data.Set.Basic
import Mathlib.Logic.Relation
import MiddleEnd.Proofs.Optimizer.Reachability

/-!
Contract: how control passes through a piece of code.

`Passes` says two things of an index and a later one. Control can get from the first to the second
exactly under some condition, and until it does it stays within bounds: there is a region that it
does not leave in any other way. Both are kept when pieces follow one another, fork and loop, so the
flow through code is read off its parts (`Completes`).

Owns: the flow between indices, and the rules for putting pieces together.
Does not own: which code is put together (`MiddleEnd.Proofs.Lowering.Returns`).
-/

namespace MiddleEnd

namespace Code

/-- Control may go from one index to another in one step. -/
def Flow (code : Code) (index other : Nat) : Prop :=
  ∃ instruction, code[index]? = some instruction ∧ other ∈ code.successors index instruction

abbrev Leads (code : Code) : Nat → Nat → Prop := Relation.ReflTransGen code.Flow

variable {code : Code} {first last start middle stop index goal : Nat} {leaves : Prop}
  {instruction : Instruction} {label : Label}

theorem flow_iff (fetched : code[index]? = some instruction) (other : Nat) :
    code.Flow index other ↔ other ∈ code.successors index instruction := by
  simp [Flow, fetched]

theorem flow_ifFalseGoto_iff {cond : Operand}
    (fetched : code[index]? = some (.ifFalseGoto cond label))
    (defined : code.labelIndex? label = some goal) (other : Nat) :
    code.Flow index other ↔ other = goal ∨ other = index + 1 := by
  rw [flow_iff fetched]
  simp [successors, defined]

theorem Reaches.flow {entry : String} {other : Nat} (reached : code.Reaches entry index)
    (flow : code.Flow index other) (valid : other < code.length) : code.Reaches entry other := by
  obtain ⟨instruction, fetched, follows⟩ := flow
  obtain ⟨inside, isHere⟩ := List.getElem?_eq_some_iff.1 fetched
  rw [← isHere] at follows
  exact reached.successor inside follows valid

theorem Leads.lt_length (leads : code.Leads start index) (valid : index < code.length) :
    start < code.length := by
  rcases Relation.ReflTransGen.cases_head leads with same | ⟨_, ⟨_, fetched, _⟩, _⟩
  · rwa [same]
  · exact (List.getElem?_eq_some_iff.1 fetched).1

theorem Reaches.leads {entry : String} (reached : code.Reaches entry start)
    (leads : code.Leads start index) (valid : index < code.length) :
    code.Reaches entry index := by
  induction leads using Relation.ReflTransGen.head_induction_on with
  | refl => exact reached
  | head flow rest inductionHypothesis =>
      exact inductionHypothesis (reached.flow flow (Leads.lt_length rest valid))

/-! ### Passing through -/

/-- The index at which control gets out of a region, if it does. -/
def exit (stop : Nat) (leaves : Prop) : Set Nat := {index | leaves ∧ index = stop}

/-- A region within bounds that control gets out of only at its exit. -/
structure Confined (code : Code) (region : Set Nat) (first last stop : Nat) (leaves : Prop) :
    Prop where
  bounds : ∀ index ∈ region, first ≤ index ∧ index < last
  flows : ∀ index ∈ region, ∀ other, code.Flow index other → other ∈ region ∪ exit stop leaves

/-- From the first index control can get to the second one exactly if `leaves` holds, and it stays
within bounds until then. -/
structure Passes (code : Code) (first last start stop : Nat) (leaves : Prop) : Prop where
  arrives : leaves → code.Leads start stop
  stays : ∃ region, code.Confined region first last stop leaves ∧
    start ∈ region ∪ exit stop leaves

namespace Passes

theorem here : code.Passes first last index index True where
  arrives := fun _ => .refl
  stays := by
    refine ⟨∅, ⟨?_, ?_⟩, Or.inr ⟨trivial, rfl⟩⟩
    · intro index inside
      cases inside
    · intro index inside
      cases inside

/-- One instruction, with one successor or none. -/
theorem single (inside : first ≤ index ∧ index < last)
    (flows : ∀ other, code.Flow index other ↔ other ∈ exit stop leaves) :
    code.Passes first last index stop leaves where
  arrives := fun proof => .single ((flows stop).2 ⟨proof, rfl⟩)
  stays := by
    refine ⟨{index}, ⟨?_, ?_⟩, Or.inl rfl⟩
    · rintro _ rfl
      exact inside
    · rintro _ rfl other flow
      exact Or.inr ((flows other).1 flow)

theorem goto (inside : first ≤ index ∧ index < last) (fetched : code[index]? = some (.goto label))
    (defined : code.labelIndex? label = some goal) :
    code.Passes first last index goal True := by
  apply single inside
  intro other
  rw [flow_iff fetched]
  simp [successors, defined, exit]

theorem widen {lower upper : Nat} (passes : code.Passes first last start stop leaves)
    (below : lower ≤ first) (above : last ≤ upper) :
    code.Passes lower upper start stop leaves where
  arrives := passes.arrives
  stays := by
    obtain ⟨region, confined, starts⟩ := passes.stays
    refine ⟨region, ⟨?_, confined.flows⟩, starts⟩
    intro index inside
    have bounds := confined.bounds index inside
    omega

theorem congr {may : Prop} (passes : code.Passes first last start stop leaves)
    (same : leaves ↔ may) : code.Passes first last start stop may := by
  rwa [← propext same]

variable {leavesFirst leavesSecond : Prop}

/-- Control gets through two pieces if it gets through both. -/
theorem trans (front : code.Passes first last start middle leavesFirst)
    (back : code.Passes first last middle stop leavesSecond) :
    code.Passes first last start stop (leavesFirst ∧ leavesSecond) where
  arrives := fun ⟨throughFront, throughBack⟩ =>
    (front.arrives throughFront).trans (back.arrives throughBack)
  stays := by
    obtain ⟨before, confinedBefore, starts⟩ := front.stays
    obtain ⟨after, confinedAfter, continues⟩ := back.stays
    -- The second region counts only if control gets to it.
    let region : Set Nat := before ∪ {index | leavesFirst ∧ index ∈ after}
    have onward : before ∪ exit middle leavesFirst ⊆
        region ∪ exit stop (leavesFirst ∧ leavesSecond) := by
      rintro index (inBefore | ⟨throughFront, rfl⟩)
      · exact Or.inl (Or.inl inBefore)
      · rcases continues with inAfter | ⟨throughBack, isStop⟩
        · exact Or.inl (Or.inr ⟨throughFront, inAfter⟩)
        · exact Or.inr ⟨⟨throughFront, throughBack⟩, isStop⟩
    refine ⟨region, ⟨?_, ?_⟩, onward starts⟩
    · rintro index (inBefore | ⟨_, inAfter⟩)
      · exact confinedBefore.bounds index inBefore
      · exact confinedAfter.bounds index inAfter
    · rintro index (inBefore | ⟨throughFront, inAfter⟩) other flow
      · exact onward (confinedBefore.flows index inBefore other flow)
      · rcases confinedAfter.flows index inAfter other flow with
          stillInAfter | ⟨throughBack, isStop⟩
        · exact Or.inl (Or.inr ⟨throughFront, stillInAfter⟩)
        · exact Or.inr ⟨⟨throughFront, throughBack⟩, isStop⟩

/-- Control gets through a fork if it gets through one of the two ways. -/
theorem fork (inside : first ≤ index ∧ index < last)
    (flows : ∀ other, code.Flow index other ↔ other = goal ∨ other = index + 1)
    (onTrue : code.Passes first last (index + 1) stop leavesFirst)
    (onFalse : code.Passes first last goal stop leavesSecond) :
    code.Passes first last index stop (leavesFirst ∨ leavesSecond) where
  arrives := by
    rintro (throughFirst | throughSecond)
    · exact .head ((flows _).2 (Or.inr rfl)) (onTrue.arrives throughFirst)
    · exact .head ((flows _).2 (Or.inl rfl)) (onFalse.arrives throughSecond)
  stays := by
    obtain ⟨left, confinedLeft, startsLeft⟩ := onTrue.stays
    obtain ⟨right, confinedRight, startsRight⟩ := onFalse.stays
    let region : Set Nat := {index} ∪ (left ∪ right)
    have fromLeft : left ∪ exit stop leavesFirst ⊆
        region ∪ exit stop (leavesFirst ∨ leavesSecond) := by
      rintro other (inLeft | ⟨through, isStop⟩)
      · exact Or.inl (Or.inr (Or.inl inLeft))
      · exact Or.inr ⟨Or.inl through, isStop⟩
    have fromRight : right ∪ exit stop leavesSecond ⊆
        region ∪ exit stop (leavesFirst ∨ leavesSecond) := by
      rintro other (inRight | ⟨through, isStop⟩)
      · exact Or.inl (Or.inr (Or.inr inRight))
      · exact Or.inr ⟨Or.inr through, isStop⟩
    refine ⟨region, ⟨?_, ?_⟩, Or.inl (Or.inl rfl)⟩
    · rintro other (rfl | inLeft | inRight)
      · exact inside
      · exact confinedLeft.bounds other inLeft
      · exact confinedRight.bounds other inRight
    · rintro source (rfl | inLeft | inRight) other flow
      · rcases (flows other).1 flow with rfl | rfl
        · exact fromRight startsRight
        · exact fromLeft startsLeft
      · exact fromLeft (confinedLeft.flows source inLeft other flow)
      · exact fromRight (confinedRight.flows source inRight other flow)

/-- Control always gets through a loop, since it may leave at the first test. -/
theorem loop (test : code.Passes first last start index True)
    (inside : first ≤ index ∧ index < last)
    (flows : ∀ other, code.Flow index other ↔ other = goal ∨ other = index + 1)
    (body : code.Passes first last (index + 1) start leaves) :
    code.Passes first last start goal True where
  arrives := fun _ => (test.arrives trivial).tail ((flows goal).2 (Or.inl rfl))
  stays := by
    obtain ⟨before, confinedBefore, starts⟩ := test.stays
    obtain ⟨around, confinedAround, continues⟩ := body.stays
    let region : Set Nat := {index} ∪ (before ∪ around)
    have fromTest : before ∪ exit index True ⊆ region ∪ exit goal True := by
      rintro other (inBefore | ⟨_, rfl⟩)
      · exact Or.inl (Or.inr (Or.inl inBefore))
      · exact Or.inl (Or.inl rfl)
    have fromBody : around ∪ exit start leaves ⊆ region ∪ exit goal True := by
      rintro other (inAround | ⟨_, rfl⟩)
      · exact Or.inl (Or.inr (Or.inr inAround))
      · exact fromTest starts
    refine ⟨region, ⟨?_, ?_⟩, fromTest starts⟩
    · rintro other (rfl | inBefore | inAround)
      · exact inside
      · exact confinedBefore.bounds other inBefore
      · exact confinedAround.bounds other inAround
    · rintro source (rfl | inBefore | inAround) other flow
      · rcases (flows other).1 flow with rfl | rfl
        · exact Or.inr ⟨trivial, rfl⟩
        · exact fromBody continues
      · exact fromTest (confinedBefore.flows source inBefore other flow)
      · exact fromBody (confinedAround.flows source inAround other flow)

end Passes

/-! ### Pieces of code -/

/-- Code has a piece from one index up to but not including another. -/
structure Holds (code : Code) (start : Nat) (piece : Code) (stop : Nat) : Prop where
  split : ∃ front back, code = front ++ (piece ++ back) ∧ front.length = start
  stop_eq : stop = start + piece.length

namespace Holds

theorem le {piece : Code} (held : code.Holds start piece stop) : start ≤ stop := by
  rw [held.stop_eq]
  exact Nat.le_add_right _ _

theorem append {front back : Code} (held : code.Holds start (front ++ back) stop) :
    ∃ middle, code.Holds start front middle ∧ code.Holds middle back stop := by
  obtain ⟨before, after, isCode, rfl⟩ := held.split
  refine ⟨before.length + front.length, ⟨⟨before, back ++ after, ?_, rfl⟩, rfl⟩, ?_, ?_⟩
  · rw [isCode, List.append_assoc]
  · exact ⟨before ++ front, after, by simp [isCode], List.length_append⟩
  · rw [held.stop_eq, List.length_append, Nat.add_assoc]

theorem fetch (held : code.Holds start [instruction] stop) :
    code[start]? = some instruction ∧ stop = start + 1 := by
  obtain ⟨before, after, isCode, rfl⟩ := held.split
  exact ⟨by simp [isCode], held.stop_eq⟩

end Holds

/-- Wherever the piece stands in the whole code, control that enters it at its start stays in it up
to its end, which it can get to exactly if `leaves` holds. -/
structure Completes (whole piece : Code) (leaves : Prop) : Prop where
  passes : ∀ {start stop}, whole.Holds start piece stop →
    whole.Passes start stop start stop leaves

namespace Completes

variable {whole piece front back : Code} {leavesFirst leavesSecond : Prop}

theorem congr {may : Prop} (completes : Completes whole piece leaves) (same : leaves ↔ may) :
    Completes whole piece may :=
  ⟨fun held => (completes.passes held).congr same⟩

theorem nil : Completes whole [] True where
  passes := by
    intro start stop held
    rw [held.stop_eq]
    exact .here

theorem append (left : Completes whole front leavesFirst)
    (right : Completes whole back leavesSecond) :
    Completes whole (front ++ back) (leavesFirst ∧ leavesSecond) where
  passes := by
    intro start stop held
    obtain ⟨middle, heldFront, heldBack⟩ := held.append
    exact ((left.passes heldFront).widen (Nat.le_refl _) heldBack.le).trans
      ((right.passes heldBack).widen heldFront.le (Nat.le_refl _))

/-- An instruction after which control goes on. -/
theorem plain (goesOn : ∀ index, whole.successors index instruction = [index + 1]) :
    Completes whole [instruction] True where
  passes := by
    intro start stop held
    obtain ⟨fetched, rfl⟩ := held.fetch
    apply Passes.single ⟨Nat.le_refl _, Nat.lt_succ_self _⟩
    intro other
    rw [flow_iff fetched, goesOn]
    simp [exit]

theorem ret (value : Operand) : Completes whole [.assign .ret value] False where
  passes := by
    intro start stop held
    obtain ⟨fetched, rfl⟩ := held.fetch
    apply Passes.single ⟨Nat.le_refl _, Nat.lt_succ_self _⟩
    intro other
    rw [flow_iff fetched]
    simp [successors, exit]

/-- Instructions after each of which control goes on. -/
theorem straight
    (goesOn : ∀ instruction ∈ piece, ∀ index, whole.successors index instruction = [index + 1]) :
    Completes whole piece True := by
  induction piece with
  | nil => exact nil
  | cons instruction rest inductionHypothesis =>
      have now := plain (goesOn instruction (List.mem_cons_self ..))
      have later : Completes whole rest True := by
        apply inductionHypothesis
        intro other member
        exact goesOn other (List.mem_cons_of_mem _ member)
      exact (now.append later).congr (and_self_iff)

end Completes

end Code

end MiddleEnd
