import Mathlib.Data.List.Infix

/-!
Contract: what two executions have in common when nobody can tell them apart.

An execution is seen through snapshots: after some amount of work it has ended in some way or goes
on, it has stored something, and it has passed some outgoing parameters. What counts as an amount
of work is up to the execution, so two of them are compared by their outcomes and not by their
snapshots. Parameters that are passed cannot be taken back, also when the execution never ends.

Owns: outcomes, and when two executions have the same ones.
Does not own: any execution (`MiddleEnd.Proofs.Execution.Machine`,
`MiddleEnd.Proofs.Execution.Interpreter`).
-/

namespace MiddleEnd

/-- What is seen of an execution after some amount of work. -/
structure Snapshot (Ending Stored : Type) where
  /-- How the execution has ended; nothing if it goes on. -/
  ending : Option Ending
  stored : Stored
  /-- The outgoing parameters passed so far, the first one first. -/
  params : List Int64

/-- An execution: what is seen of it after each amount of work. -/
abbrev Execution (Ending Stored : Type) := Nat → Snapshot Ending Stored

/-- What becomes of an execution. One that never ends is known by the lists of parameters that it
begins to pass. -/
inductive Outcome (Ending Stored : Type) where
  | ended (ending : Ending) (stored : Stored) (params : List Int64)
  | diverged (begins : List Int64 → Prop)

namespace Execution

variable {Ending Stored : Type}

/-- Whether an execution has an outcome. -/
def Has (execution : Execution Ending Stored) : Outcome Ending Stored → Prop
  | .ended ending stored params => ∃ work, execution work = ⟨some ending, stored, params⟩
  | .diverged begins =>
      (∀ work, (execution work).ending = none) ∧
        ∀ params, begins params ↔ ∃ work, params <+: (execution work).params

/-- Two executions that have the same outcomes. -/
def SameOutcome (left right : Execution Ending Stored) : Prop :=
  ∀ outcome, left.Has outcome ↔ right.Has outcome

theorem SameOutcome.refl (execution : Execution Ending Stored) :
    execution.SameOutcome execution :=
  fun _ => Iff.rfl

theorem SameOutcome.trans {first second third : Execution Ending Stored}
    (left : first.SameOutcome second) (right : second.SameOutcome third) :
    first.SameOutcome third :=
  fun outcome => (left outcome).trans (right outcome)

/-- One execution is covered by another: the other ends in every way in which it ends, and passes
all parameters that it passes. -/
structure CoveredBy (left right : Execution Ending Stored) : Prop where
  ends : ∀ work ending stored params, left work = ⟨some ending, stored, params⟩ →
    ∃ other, right other = ⟨some ending, stored, params⟩
  passes : ∀ work, ∃ other, (left work).params <+: (right other).params

theorem coveredBy_of_snapshots {left right : Execution Ending Stored}
    (snapshots : ∀ work, ∃ other, right other = left work) : left.CoveredBy right where
  ends := by
    intro work ending stored params seen
    obtain ⟨other, same⟩ := snapshots work
    exact ⟨other, same.trans seen⟩
  passes := by
    intro work
    obtain ⟨other, same⟩ := snapshots work
    refine ⟨other, ?_⟩
    rw [same]

theorem CoveredBy.endless {left right : Execution Ending Stored} (covered : left.CoveredBy right)
    (endless : ∀ work, (right work).ending = none) (work : Nat) : (left work).ending = none := by
  cases seen : left work with
  | mk ending stored params =>
      cases ending with
      | none => rfl
      | some ending =>
          obtain ⟨other, same⟩ := covered.ends work ending stored params seen
          have goesOn := endless other
          rw [same] at goesOn
          cases goesOn

theorem CoveredBy.begins {left right : Execution Ending Stored} (covered : left.CoveredBy right)
    {params : List Int64} (passed : ∃ work, params <+: (left work).params) :
    ∃ work, params <+: (right work).params := by
  obtain ⟨work, first⟩ := passed
  obtain ⟨other, rest⟩ := covered.passes work
  exact ⟨other, first.trans rest⟩

theorem Has.of_covered {left right : Execution Ending Stored} (forward : left.CoveredBy right)
    (backward : right.CoveredBy left) {outcome : Outcome Ending Stored} (has : left.Has outcome) :
    right.Has outcome := by
  cases outcome with
  | ended ending stored params =>
      obtain ⟨work, seen⟩ := has
      exact forward.ends work ending stored params seen
  | diverged begins =>
      obtain ⟨endless, passed⟩ := has
      refine ⟨backward.endless endless, ?_⟩
      intro params
      rw [passed]
      exact ⟨forward.begins, backward.begins⟩

/-- Executions that follow each other have the same outcomes. -/
theorem sameOutcome_of_covered {left right : Execution Ending Stored}
    (forward : left.CoveredBy right) (backward : right.CoveredBy left) : left.SameOutcome right :=
  fun _ => ⟨Has.of_covered forward backward, Has.of_covered backward forward⟩

/-- An execution that ends as another does, and until then has worked at least as much, has the same
outcomes, provided that it takes back nothing that has been seen of it. -/
theorem sameOutcome_of_keeping_up {left right : Execution Ending Stored}
    (stays : ∀ work more, (right work).ending ≠ none → work ≤ more → right more = right work)
    (grows : ∀ work more, work ≤ more → (right work).params <+: (right more).params)
    (keepsUp : ∀ work, ∃ other, right other = left work ∧
      ((left work).ending = none → work ≤ other)) : left.SameOutcome right := by
  have forward : left.CoveredBy right := coveredBy_of_snapshots fun work => by
    obtain ⟨other, same, _⟩ := keepsUp work
    exact ⟨other, same⟩
  refine sameOutcome_of_covered forward ⟨?_, ?_⟩
  · intro work ending stored params seen
    obtain ⟨other, same, enough⟩ := keepsUp work
    have ended : (right work).ending ≠ none := by
      rw [seen]
      exact nofun
    refine ⟨work, ?_⟩
    rw [← same, ← seen]
    by_cases later : work ≤ other
    · exact stays work other ended later
    · have otherEnded : (right other).ending ≠ none := by
        rw [same]
        exact fun goesOn => later (enough goesOn)
      exact (stays other work otherEnded (by omega)).symm
  · intro work
    obtain ⟨other, same, enough⟩ := keepsUp work
    refine ⟨work, ?_⟩
    rw [← same]
    by_cases later : work ≤ other
    · exact grows work other later
    · have otherEnded : (right other).ending ≠ none := by
        rw [same]
        exact fun goesOn => later (enough goesOn)
      rw [stays other work otherEnded (by omega)]

end Execution

end MiddleEnd
