import Mathlib.Algebra.Order.Group.Unbundled.Int
import MiddleEnd.Optimizer.Arithmetic

/-!
Contract: arithmetic ahead of time agrees with the integers.

Words stand for the integers from `-2 ^ 63` up to `2 ^ 63`, the upper end left out. A sum, a
difference or a product has a value exactly if the integer result is one of these, and the value is
that integer: nothing wraps around. Quotient and remainder have values on the same pairs, those with
a divisor other than zero and a quotient that fits. There they are the quotient that is rounded
toward zero and what it leaves over (`evaluate_exact`).

Owns: which integer an operation on literals yields, and when it yields one.
-/

namespace MiddleEnd

/-- The integer is that of a word. -/
def Fits (value : Int) : Prop := -2 ^ 63 ≤ value ∧ value < 2 ^ 63

/-- There is a word exactly if the integer fits, and it stands for this integer. -/
structure Represents (result : Option Int64) (value : Int) : Prop where
  defined : result.isSome ↔ Fits value
  agrees : ∀ word, result = some word → word.toInt = value

/-- Two integers have a quotient, and it fits if they do. -/
def HasQuotient (left right : Int) : Prop := right ≠ 0 ∧ ¬(left = -2 ^ 63 ∧ right = -1)

/-! ### Checked words -/

theorem isSome_checked (wrong : Bool) (word : Int64) :
    (checked wrong word).isSome ↔ wrong = false := by
  cases wrong <;> simp [checked]

theorem checked_eq_some_iff {wrong : Bool} {word value : Int64} :
    checked wrong word = some value ↔ wrong = false ∧ word = value := by
  cases wrong <;> simp [checked]

/-- An operation that is checked for overflow represents its integer result. -/
theorem represents_checked {overflow : Bool} {word : Int64} {value : Int}
    (test : overflow = (decide (2 ^ 63 ≤ value) || decide (value < -2 ^ 63)))
    (same : ¬overflow = true → word.toInt = value) :
    Represents (checked overflow word) value where
  defined := by
    rw [isSome_checked, test, Bool.or_eq_false_iff, decide_eq_false_iff_not,
      decide_eq_false_iff_not, Int.not_le, Int.not_lt, And.comm, Fits]
  agrees := by
    intro other isOther
    obtain ⟨noOverflow, rfl⟩ := checked_eq_some_iff.1 isOther
    exact same (Bool.eq_false_iff.1 noOverflow)

/-! ### Quotients and remainders -/

section Division

variable (left right : Int64)

/-- The test that guards quotient and remainder lets exactly the pairs with a quotient through. -/
theorem division_allowed_iff :
    (right == 0 || left.toBitVec.sdivOverflow right.toBitVec) = false ↔
      HasQuotient left.toInt right.toInt := by
  have lowest : left.toBitVec = BitVec.intMin 64 ↔ left.toInt = -2 ^ 63 :=
    BitVec.toInt_inj.symm
  have minusOne : right.toBitVec = BitVec.allOnes 64 ↔ right.toInt = -1 :=
    BitVec.toInt_inj.symm
  have zero : right = 0 ↔ right.toInt = 0 := Int64.toInt_inj.symm
  rw [BitVec.sdivOverflow_eq, HasQuotient, ← lowest, ← minusOne, Ne, ← zero]
  simp

theorem toInt_div_of_hasQuotient (hasQuotient : HasQuotient left.toInt right.toInt) :
    (left / right).toInt = left.toInt.tdiv right.toInt := by
  by_cases lowest : left = Int64.minValue
  · apply Int64.toInt_div_of_ne_right
    rintro rfl
    exact hasQuotient.2 ⟨congrArg Int64.toInt lowest, rfl⟩
  · exact Int64.toInt_div_of_ne_left left right lowest

end Division

/-- What truncating division leaves over is smaller than the divisor and has the sign of the
dividend, unless it is zero. -/
theorem tdiv_tmod_spec (left right : Int) (nonzero : right ≠ 0) :
    left = left.tdiv right * right + left.tmod right ∧ |left.tmod right| < |right| ∧
      (left.tmod right = 0 ∨ (left.tmod right).sign = left.sign) := by
  refine ⟨?_, ?_, ?_⟩
  · rw [Int.mul_comm, Int.mul_tdiv_add_tmod]
  · rw [Int.abs_eq_natAbs, Int.abs_eq_natAbs, Int.natAbs_tmod, Int.ofNat_lt]
    exact Nat.mod_lt _ (Int.natAbs_pos.2 nonzero)
  · have signs := Int.sign_tmod left right
    split at signs
    · exact Or.inl (Int.sign_eq_zero_iff_zero.1 signs)
    · exact Or.inr signs

/-- On all words, sums, differences and products are exact where they have a value, and have one
exactly where the integer result fits. Quotient and remainder have values on the same pairs. These
put the dividend together again, and the remainder is smaller than the divisor and zero or of the
sign of the dividend. -/
theorem evaluate_exact (left right : Int64) :
    Represents (evaluate .add left right) (left.toInt + right.toInt) ∧
    Represents (evaluate .sub left right) (left.toInt - right.toInt) ∧
    Represents (evaluate .mul left right) (left.toInt * right.toInt) ∧
    ((evaluate .div left right).isSome ↔ HasQuotient left.toInt right.toInt) ∧
    ((evaluate .rem left right).isSome ↔ HasQuotient left.toInt right.toInt) ∧
    ∀ quotient remainder,
      evaluate .div left right = some quotient → evaluate .rem left right = some remainder →
        left.toInt = quotient.toInt * right.toInt + remainder.toInt ∧
        |remainder.toInt| < |right.toInt| ∧
        (remainder.toInt = 0 ∨ remainder.toInt.sign = left.toInt.sign) := by
  have allowed := division_allowed_iff left right
  refine ⟨?_, ?_, ?_, ?_, ?_, ?_⟩
  · exact represents_checked rfl BitVec.toInt_add_of_not_saddOverflow
  · exact represents_checked rfl BitVec.toInt_sub_of_not_ssubOverflow
  · exact represents_checked rfl BitVec.toInt_mul_of_not_smulOverflow
  · exact (isSome_checked _ _).trans allowed
  · exact (isSome_checked _ _).trans allowed
  · intro quotient remainder isQuotient isRemainder
    obtain ⟨noFault, rfl⟩ := checked_eq_some_iff.1 isQuotient
    obtain ⟨_, rfl⟩ := checked_eq_some_iff.1 isRemainder
    have hasQuotient := allowed.1 noFault
    rw [toInt_div_of_hasQuotient left right hasQuotient, Int64.toInt_mod]
    exact tdiv_tmod_spec left.toInt right.toInt hasQuotient.1

-- The remainder of the lowest word by minus one would be zero, but has no value.
example :
    evaluate .rem Int64.minValue (-1) = none ∧ evaluate .mul Int64.minValue (-1) = none ∧
      evaluate .div (-7) 2 = some (-3) ∧ evaluate .rem (-7) 2 = some (-1) := by
  decide

end MiddleEnd
