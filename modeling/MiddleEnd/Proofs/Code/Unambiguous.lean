import Mathlib.Data.Char
import Mathlib.Data.List.Basic
import MiddleEnd.Proofs.Code.Listing

/-!
Contract: the listing of code with ordinary names can be read in one way only.

Neither a name nor any other part of an instruction then has a blank, so the text of an instruction
falls into words at its blanks (`Instruction.words`). How many words there are tells the forms of
instructions apart, but for a jump and an assignment of nothing, of which only the latter has the
word `=`. Variables may be spelled like labels or like the words of jumps; they are known by their
place. A word that is read or written is a literal if it starts with a digit or a sign, and a
temporary or a write-only destination if it is one of the reserved texts.

Owns: ordinary names, and that texts of instructions with such names determine them.
Does not own: how the texts are recovered from a listing (`MiddleEnd.Proofs.Code.Listing`).
-/

namespace MiddleEnd

/-! ### Ordinary names -/

/-- An ASCII letter or digit, or an underscore. -/
def isWordChar (char : Char) : Bool := char.isAlphanum || char == '_'

/-- Letters, digits and underscores, at least one of them, that do not start with a digit. -/
def isWord (text : String) : Bool :=
  match text.toList with
  | [] => false
  | first :: rest => !first.isDigit && (first :: rest).all isWordChar

/-- A `t` with only digits after it, as temporaries are written; a single `t` is none. -/
def isTempText (text : String) : Bool :=
  match text.toList with
  | 't' :: digits => !digits.isEmpty && digits.all Char.isDigit
  | _ => false

/-- What an assignment writes other than a variable: the return value, a parameter, a temporary. -/
def isReserved (text : String) : Bool :=
  text == "return" || text == "param" || isTempText text

/-- A variable is ordinary if its name is a word and not reserved. -/
def Slot.isOrdinary : Slot → Bool
  | var name => isWord name && !isReserved name
  | temp _ => true

def Operand.isOrdinary : Operand → Bool
  | slot place => place.isOrdinary
  | const _ => true
  | empty => true

def Dest.isOrdinary : Dest → Bool
  | slot place => place.isOrdinary
  | ret => true
  | param => true

/-- A function label is ordinary if its name is a word. -/
def Label.isOrdinary : Label → Bool
  | block _ => true
  | function name => isWord name

def Instruction.isOrdinary : Instruction → Bool
  | assign dest value => dest.isOrdinary && value.isOrdinary
  | binary _ _ left right => left.isOrdinary && right.isOrdinary
  | label name => name.isOrdinary
  | goto target => target.isOrdinary
  | ifFalseGoto cond target => cond.isOrdinary && target.isOrdinary

/-- Every name in the code is ordinary. -/
def Code.isOrdinary (code : Code) : Bool := code.all Instruction.isOrdinary

/-! ### Words -/

/-- Every character comes after the blank, and so after the characters that end lines. -/
def isSolid (text : String) : Bool := text.toList.all fun char => ' ' < char

theorem isSolid_iff {text : String} :
    isSolid text = true ↔ ∀ char ∈ text.toList, ' ' < char := by
  simp only [isSolid, List.all_eq_true, decide_eq_true_eq]

theorem isSolid_append {front back : String} (frontSolid : isSolid front = true)
    (backSolid : isSolid back = true) : isSolid (front ++ back) = true := by
  rw [isSolid, String.toList_append, List.all_append, ← isSolid, ← isSolid, frontSolid, backSolid,
    Bool.and_true]

theorem blank_lt_of_isWordChar {char : Char} (wordChar : isWordChar char = true) : ' ' < char := by
  delta isWordChar Char.isAlphanum Char.isAlpha Char.isUpper Char.isLower Char.isDigit at wordChar
  simp only [Bool.or_eq_true, Bool.and_eq_true, decide_eq_true_eq, beq_iff_eq] at wordChar
  rw [Char.lt_def]
  rcases wordChar with ((⟨above, _⟩ | ⟨above, _⟩) | ⟨above, _⟩) | rfl
  · exact UInt32.lt_of_lt_of_le (by decide) above
  · exact UInt32.lt_of_lt_of_le (by decide) above
  · exact UInt32.lt_of_lt_of_le (by decide) above
  · decide

theorem isWordChar_of_isDigit {char : Char} (digit : char.isDigit = true) :
    isWordChar char = true := by
  rw [isWordChar, Char.isAlphanum, digit, Bool.or_true, Bool.true_or]

theorem isWord_iff {text : String} :
    isWord text = true ↔ (∃ first, text.toList.head? = some first ∧ first.isDigit = false) ∧
      ∀ char ∈ text.toList, isWordChar char = true := by
  unfold isWord
  split <;> simp [*]

theorem isSolid_of_isWord {text : String} (word : isWord text = true) : isSolid text = true :=
  isSolid_iff.2 fun char member => blank_lt_of_isWordChar ((isWord_iff.1 word).2 char member)

theorem ne_of_isWord {text other : String} (word : isWord text = true)
    (noWord : isWord other = false) : text ≠ other := by
  rintro rfl
  rw [word] at noWord
  cases noWord

theorem isWord_append {front back : String} (word : isWord front = true)
    (goesOn : ∀ char ∈ back.toList, isWordChar char = true) : isWord (front ++ back) = true := by
  obtain ⟨⟨first, isFirst, noDigit⟩, all⟩ := isWord_iff.1 word
  rw [isWord_iff, String.toList_append]
  refine ⟨⟨first, ?_, noDigit⟩, ?_⟩
  · rw [List.head?_append, isFirst, Option.some_or]
  · intro char member
    rcases List.mem_append.1 member with inFront | inBack
    · exact all char inFront
    · exact goesOn char inBack

theorem isWord_append_toString {front : String} (word : isWord front = true) (number : Nat) :
    isWord (front ++ toString number) = true :=
  isWord_append word fun _ member =>
    isWordChar_of_isDigit (Listing.isDigit_of_mem_toString member)

/-! ### Numbers -/

theorem isSolid_toString_nat (number : Nat) : isSolid (toString number) = true := by
  rw [isSolid_iff]
  intro char member
  exact blank_lt_of_isWordChar (isWordChar_of_isDigit (Listing.isDigit_of_mem_toString member))

theorem isWord_toString_nat (number : Nat) : isWord (toString number) = false := by
  rw [← Bool.not_eq_true]
  intro word
  obtain ⟨⟨first, isFirst, noDigit⟩, _⟩ := isWord_iff.1 word
  rw [Listing.isDigit_of_mem_toString (List.mem_of_mem_head? isFirst)] at noDigit
  cases noDigit

theorem toString_nat_injective {left right : Nat} (same : toString left = toString right) :
    left = right := by
  have readBack (number : Nat) : Nat.ofDigitChars 10 (toString number).toList 0 = number := by
    rw [Nat.toString_eq_repr, Nat.toList_repr, Nat.ofDigitChars_toDigits (by decide) (by decide)]
  rw [← readBack left, same, readBack]

/-- The sign tells a negative number from the others. -/
theorem sign_append_ne_toString_nat (digits number : Nat) :
    "-" ++ toString digits ≠ toString number := by
  intro same
  have sign : '-' ∈ (toString number).toList := by simp [← same]
  exact absurd (Listing.isDigit_of_mem_toString sign) (by decide)

/-- A number is written in digits, after a sign if it is negative. -/
theorem toString_int_cases (number : Int) :
    ∃ digits : Nat, toString number = toString digits ∨
      toString number = "-" ++ toString digits := by
  rw [Int.toString_eq_repr, Int.repr_eq_if]
  split
  · exact ⟨number.toNat, Or.inl rfl⟩
  · exact ⟨(-number).toNat, Or.inr rfl⟩

theorem toString_int_injective {left right : Int} (same : toString left = toString right) :
    left = right := by
  rw [Int.toString_eq_repr, Int.toString_eq_repr, Int.repr_eq_if, Int.repr_eq_if] at same
  split at same <;> split at same
  · have sameDigits := toString_nat_injective same
    omega
  · exact absurd same.symm (sign_append_ne_toString_nat _ _)
  · exact absurd same (sign_append_ne_toString_nat _ _)
  · have sameDigits := toString_nat_injective ((String.append_right_inj "-").1 same)
    omega

theorem isSolid_toString_int (number : Int) : isSolid (toString number) = true := by
  obtain ⟨digits, same | same⟩ := toString_int_cases number
  · rw [same]
    exact isSolid_toString_nat digits
  · rw [same]
    exact isSolid_append (by decide) (isSolid_toString_nat digits)

theorem isWord_toString_int (number : Int) : isWord (toString number) = false := by
  obtain ⟨digits, same | same⟩ := toString_int_cases number
  · rw [same, isWord_toString_nat]
  · rw [same, ← Bool.not_eq_true]
    intro word
    have signIsWordChar := (isWord_iff.1 word).2 '-' (by simp)
    exact absurd signIsWordChar (by decide)

/-! ### Parts of instructions -/

namespace Temp

theorem isWord_render (temp : Temp) : isWord temp.render = true :=
  isWord_append_toString (by decide) _

theorem isTempText_render (temp : Temp) : isTempText temp.render = true := by
  have spelling : temp.render.toList = 't' :: (toString temp.index.toNat).toList := by
    simp [render]
  simp only [isTempText, spelling, Bool.and_eq_true, List.all_eq_true]
  exact ⟨by simp, fun _ => Listing.isDigit_of_mem_toString⟩

theorem render_injective {left right : Temp} (same : left.render = right.render) :
    left = right := by
  have sameNumber : left.index.toNat = right.index.toNat :=
    toString_nat_injective (by simpa [render] using same)
  cases left
  cases right
  exact congrArg Temp.mk (UInt32.toNat_inj.1 sameNumber)

end Temp

namespace Slot

variable {left right : Slot}

theorem isWord_render (ordinary : left.isOrdinary = true) : isWord left.render = true := by
  cases left with
  | var name => exact (Bool.and_eq_true_iff.1 ordinary).1
  | temp temporary => exact temporary.isWord_render

theorem isReserved_eq_false {name : String} (ordinary : (var name).isOrdinary = true) :
    isReserved name = false := by
  simpa using (Bool.and_eq_true_iff.1 ordinary).2

theorem var_ne_temp {name : String} (ordinary : (var name).isOrdinary = true)
    (temporary : Temp) : name ≠ temporary.render := by
  rintro rfl
  have free := isReserved_eq_false ordinary
  rw [isReserved, temporary.isTempText_render, Bool.or_true] at free
  cases free

theorem render_injective (leftOrdinary : left.isOrdinary = true)
    (rightOrdinary : right.isOrdinary = true) (same : left.render = right.render) :
    left = right := by
  cases left with
  | var leftName =>
      cases right with
      | var rightName => exact congrArg var same
      | temp temporary => exact absurd same (var_ne_temp leftOrdinary temporary)
  | temp leftTemp =>
      cases right with
      | var rightName => exact absurd same.symm (var_ne_temp rightOrdinary leftTemp)
      | temp rightTemp => exact congrArg temp (Temp.render_injective same)

/-- No slot is written like something reserved that is not a temporary. -/
theorem render_ne (ordinary : left.isOrdinary = true) {text : String}
    (reserved : isReserved text = true) (noTemp : isTempText text = false) :
    left.render ≠ text := by
  rintro rfl
  cases left with
  | var name =>
      rw [render, isReserved_eq_false ordinary] at reserved
      cases reserved
  | temp temporary =>
      rw [render, temporary.isTempText_render] at noTemp
      cases noTemp

end Slot

namespace Dest

variable {left right : Dest}

theorem isWord_render (ordinary : left.isOrdinary = true) : isWord left.render = true := by
  cases left with
  | slot place => exact place.isWord_render ordinary
  | ret => decide
  | param => decide

theorem render_injective (leftOrdinary : left.isOrdinary = true)
    (rightOrdinary : right.isOrdinary = true) (same : left.render = right.render) :
    left = right := by
  cases left with
  | slot leftPlace =>
      cases right with
      | slot rightPlace =>
          exact congrArg slot (Slot.render_injective leftOrdinary rightOrdinary same)
      | ret => exact absurd same (Slot.render_ne leftOrdinary (by decide) (by decide))
      | param => exact absurd same (Slot.render_ne leftOrdinary (by decide) (by decide))
  | ret =>
      cases right with
      | slot place => exact absurd same.symm (Slot.render_ne rightOrdinary (by decide) (by decide))
      | ret => rfl
      | param => exact absurd same (by decide)
  | param =>
      cases right with
      | slot place => exact absurd same.symm (Slot.render_ne rightOrdinary (by decide) (by decide))
      | ret => exact absurd same (by decide)
      | param => rfl

end Dest

namespace Operand

variable {left right : Operand}

theorem isSolid_render (ordinary : left.isOrdinary = true) : isSolid left.render = true := by
  cases left with
  | const value => exact isSolid_toString_int value.toInt
  | slot place => exact isSolid_of_isWord (place.isWord_render ordinary)
  | empty => decide

theorem const_ne_empty (value : Int64) : (const value).render ≠ "" := by
  obtain ⟨digits, same | same⟩ := toString_int_cases value.toInt
  · simp [render, same]
  · simp [render, same]

theorem render_injective (leftOrdinary : left.isOrdinary = true)
    (rightOrdinary : right.isOrdinary = true) (same : left.render = right.render) :
    left = right := by
  cases left with
  | const leftValue =>
      cases right with
      | const rightValue =>
          exact congrArg const (Int64.toInt_inj.1 (toString_int_injective same))
      | slot place =>
          exact absurd same.symm
            (ne_of_isWord (place.isWord_render rightOrdinary) (isWord_toString_int leftValue.toInt))
      | empty => exact absurd same (const_ne_empty leftValue)
  | slot leftPlace =>
      cases right with
      | const value =>
          exact absurd same
            (ne_of_isWord (leftPlace.isWord_render leftOrdinary) (isWord_toString_int value.toInt))
      | slot rightPlace =>
          exact congrArg slot (Slot.render_injective leftOrdinary rightOrdinary same)
      | empty => exact absurd same (ne_of_isWord (leftPlace.isWord_render leftOrdinary) rfl)
  | empty =>
      cases right with
      | const value => exact absurd same.symm (const_ne_empty value)
      | slot place => exact absurd same.symm (ne_of_isWord (place.isWord_render rightOrdinary) rfl)
      | empty => rfl

/-- The words of an assigned value. -/
def words : Operand → List String
  | empty => []
  | const value => [(const value).render]
  | slot place => [(slot place).render]

theorem render_eq_headD (operand : Operand) : operand.render = operand.words.headD "" := by
  cases operand <;> rfl

end Operand

namespace Label

variable {left right : Label}

theorem isWord_render (ordinary : left.isOrdinary = true) : isWord left.render = true := by
  cases left with
  | block index => exact isWord_append_toString (by decide) _
  | function name => exact isWord_append (by decide) (isWord_iff.1 ordinary).2

theorem render_injective (same : left.render = right.render) : left = right := by
  cases left with
  | block leftIndex =>
      cases right with
      | block rightIndex =>
          have sameNumber : leftIndex.toNat = rightIndex.toNat :=
            toString_nat_injective (by simpa [render] using same)
          exact congrArg block (UInt32.toNat_inj.1 sameNumber)
      | function name => exact absurd (congrArg String.toList same) (by simp [render])
  | function leftName =>
      cases right with
      | block index => exact absurd (congrArg String.toList same) (by simp [render])
      | function rightName => exact congrArg function ((String.append_right_inj _).1 same)

end Label

namespace Operator

theorem isSolid_render (op : Operator) : isSolid op.render = true := by
  cases op <;> decide

theorem render_injective {left right : Operator} (same : left.render = right.render) :
    left = right := by
  revert same
  cases left <;> cases right <;> decide

end Operator

/-! ### Instructions -/

namespace Instruction

/-- The words of the text. The empty operands of an operation are empty words. -/
def words : Instruction → List String
  | assign dest value => dest.render :: "=" :: value.words
  | binary dest op left right => [dest.render, "=", left.render, op.render, right.render]
  | label name => [name.render ++ ":"]
  | goto target => ["goto", target.render]
  | ifFalseGoto cond target => ["if", "!" ++ cond.render, "goto", target.render]

theorem toList_render (instruction : Instruction) :
    instruction.render.toList = [' '].intercalate (instruction.words.map String.toList) := by
  cases instruction with
  | assign dest value => cases value <;> simp [render, words, Operand.words]
  | _ => simp [render, words]

theorem isSolid_of_mem_words {instruction : Instruction}
    (ordinary : instruction.isOrdinary = true) :
    ∀ word ∈ instruction.words, isSolid word = true := by
  rw [← List.all_eq_true]
  cases instruction with
  | assign dest value =>
      obtain ⟨destOrdinary, valueOrdinary⟩ := Bool.and_eq_true_iff.1 ordinary
      have destSolid := isSolid_of_isWord (dest.isWord_render destOrdinary)
      have valueSolid := value.isSolid_render valueOrdinary
      have equalsSolid : isSolid "=" = true := by decide
      cases value <;> simp [words, Operand.words, destSolid, equalsSolid, valueSolid]
  | binary dest op left right =>
      obtain ⟨leftOrdinary, rightOrdinary⟩ := Bool.and_eq_true_iff.1 ordinary
      have destSolid := isSolid_of_isWord dest.isWord_render
      have equalsSolid : isSolid "=" = true := by decide
      simp [words, destSolid, equalsSolid, op.isSolid_render, left.isSolid_render leftOrdinary,
        right.isSolid_render rightOrdinary]
  | label name =>
      have nameSolid := isSolid_of_isWord (name.isWord_render ordinary)
      have markedSolid : isSolid (name.render ++ ":") = true := isSolid_append nameSolid (by decide)
      simp [words, markedSolid]
  | goto target =>
      have targetSolid := isSolid_of_isWord (target.isWord_render ordinary)
      have gotoSolid : isSolid "goto" = true := by decide
      simp [words, gotoSolid, targetSolid]
  | ifFalseGoto cond target =>
      obtain ⟨condOrdinary, targetOrdinary⟩ := Bool.and_eq_true_iff.1 ordinary
      have targetSolid := isSolid_of_isWord (target.isWord_render targetOrdinary)
      have negatedSolid : isSolid ("!" ++ cond.render) = true :=
        isSolid_append (by decide) (cond.isSolid_render condOrdinary)
      have ifSolid : isSolid "if" = true := by decide
      have gotoSolid : isSolid "goto" = true := by decide
      simp [words, ifSolid, negatedSolid, gotoSolid, targetSolid]

variable {left right : Instruction}

/-- The forms of instructions, numbered by their words. -/
def form : Instruction → Nat
  | label _ => 1
  | goto _ => 2
  | assign _ _ => 3
  | ifFalseGoto _ _ => 4
  | binary _ _ _ _ => 5

/-- The form that words show. An assignment of nothing lacks its third word. -/
def formOf (words : List String) : Nat :=
  if words.length = 2 ∧ words[1]? = some "=" then 3 else words.length

theorem formOf_words (ordinary : left.isOrdinary = true) : formOf left.words = left.form := by
  cases left with
  | assign dest value => cases value <;> simp [formOf, words, Operand.words, form]
  | goto target =>
      have noEquals : target.render ≠ "=" :=
        ne_of_isWord (target.isWord_render ordinary) (by decide)
      simp [formOf, words, form, noEquals]
  | _ => simp [formOf, words, form]

theorem words_injective (leftOrdinary : left.isOrdinary = true)
    (rightOrdinary : right.isOrdinary = true) (same : left.words = right.words) :
    left = right := by
  -- Instructions with the same words have the same form, and then the same parts.
  have sameForm : left.form = right.form := by
    rw [← formOf_words leftOrdinary, ← formOf_words rightOrdinary, same]
  cases left with
  | assign leftDest leftValue =>
      cases right with
      | assign rightDest rightValue =>
          obtain ⟨leftDestOrdinary, leftValueOrdinary⟩ := Bool.and_eq_true_iff.1 leftOrdinary
          obtain ⟨rightDestOrdinary, rightValueOrdinary⟩ := Bool.and_eq_true_iff.1 rightOrdinary
          obtain ⟨sameDest, sameRest⟩ := List.cons.inj same
          have sameValue : leftValue.render = rightValue.render := by
            rw [leftValue.render_eq_headD, rightValue.render_eq_headD, (List.cons.inj sameRest).2]
          rw [Dest.render_injective leftDestOrdinary rightDestOrdinary sameDest,
            Operand.render_injective leftValueOrdinary rightValueOrdinary sameValue]
      | _ => cases sameForm
  | binary leftDest leftOp leftFirst leftSecond =>
      cases right with
      | binary rightDest rightOp rightFirst rightSecond =>
          obtain ⟨leftFirstOrdinary, leftSecondOrdinary⟩ := Bool.and_eq_true_iff.1 leftOrdinary
          obtain ⟨rightFirstOrdinary, rightSecondOrdinary⟩ := Bool.and_eq_true_iff.1 rightOrdinary
          simp only [words, List.cons.injEq, true_and, and_true] at same
          obtain ⟨sameDest, sameFirst, sameOp, sameSecond⟩ := same
          rw [Temp.render_injective sameDest, Operator.render_injective sameOp,
            Operand.render_injective leftFirstOrdinary rightFirstOrdinary sameFirst,
            Operand.render_injective leftSecondOrdinary rightSecondOrdinary sameSecond]
      | _ => cases sameForm
  | label leftName =>
      cases right with
      | label rightName =>
          have sameName := (String.append_left_inj ":").1 (List.cons.inj same).1
          rw [Label.render_injective sameName]
      | _ => cases sameForm
  | goto leftTarget =>
      cases right with
      | goto rightTarget =>
          have sameTarget := (List.cons.inj (List.cons.inj same).2).1
          rw [Label.render_injective sameTarget]
      | _ => cases sameForm
  | ifFalseGoto leftCond leftTarget =>
      cases right with
      | ifFalseGoto rightCond rightTarget =>
          obtain ⟨leftCondOrdinary, _⟩ := Bool.and_eq_true_iff.1 leftOrdinary
          obtain ⟨rightCondOrdinary, _⟩ := Bool.and_eq_true_iff.1 rightOrdinary
          simp only [words, List.cons.injEq, true_and, and_true] at same
          have sameCond := (String.append_right_inj "!").1 same.1
          rw [Operand.render_injective leftCondOrdinary rightCondOrdinary sameCond,
            Label.render_injective same.2]
      | _ => cases sameForm

/-- Splitting the text at its blanks gives the words. -/
theorem splitOn_toList_render (ordinary : left.isOrdinary = true) :
    left.render.toList.splitOn ' ' = left.words.map String.toList := by
  rw [toList_render]
  apply List.splitOn_intercalate
  · intro chars member blank
    obtain ⟨word, isWord, rfl⟩ := List.mem_map.1 member
    exact lt_irrefl _ (isSolid_iff.1 (isSolid_of_mem_words ordinary word isWord) ' ' blank)
  · cases left <;> simp [words]

theorem render_injective (leftOrdinary : left.isOrdinary = true)
    (rightOrdinary : right.isOrdinary = true) (same : left.render = right.render) :
    left = right := by
  apply words_injective leftOrdinary rightOrdinary
  apply List.map_injective_iff.2 fun _ _ => String.toList_injective
  rw [← splitOn_toList_render leftOrdinary, ← splitOn_toList_render rightOrdinary, same]

theorem blank_le_of_mem_intercalate {words : List String}
    (solid : ∀ word ∈ words, isSolid word = true) {char : Char}
    (member : char ∈ [' '].intercalate (words.map String.toList)) : ' ' ≤ char := by
  induction words with
  | nil => simp at member
  | cons word rest inductionHypothesis =>
      have here (inside : char ∈ word.toList) : ' ' ≤ char :=
        le_of_lt (isSolid_iff.1 (solid word (List.mem_cons_self ..)) char inside)
      cases rest with
      | nil => exact here (by simpa using member)
      | cons next rest =>
          rw [List.map_cons, List.map_cons, List.intercalate_cons_cons] at member
          rcases List.mem_append.1 member with front | later
          · rcases List.mem_append.1 front with inside | blank
            · exact here inside
            · exact le_of_eq (List.mem_singleton.1 blank).symm
          · apply inductionHypothesis _ later
            exact fun other among => solid other (List.mem_cons_of_mem word among)

theorem lineSafe_render (ordinary : left.isOrdinary = true) : Listing.LineSafe left.render := by
  have visible (char : Char) (member : char ∈ left.render.toList) : ' ' ≤ char := by
    rw [toList_render] at member
    exact blank_le_of_mem_intercalate (isSolid_of_mem_words ordinary) member
  constructor
  · intro newline
    exact absurd (visible _ newline) (by decide)
  · intro isReturn
    exact absurd (visible _ (List.mem_of_getLast? isReturn)) (by decide)

end Instruction

namespace Code

theorem eq_of_map_render {left right : Code} (leftOrdinary : left.isOrdinary = true)
    (rightOrdinary : right.isOrdinary = true)
    (same : left.map Instruction.render = right.map Instruction.render) : left = right := by
  induction left generalizing right with
  | nil => exact (List.map_eq_nil_iff.1 same.symm).symm
  | cons first rest inductionHypothesis =>
      cases right with
      | nil => cases same
      | cons other others =>
          obtain ⟨sameFirst, sameRest⟩ := List.cons.inj same
          obtain ⟨firstOrdinary, restOrdinary⟩ := Bool.and_eq_true_iff.1 leftOrdinary
          obtain ⟨otherOrdinary, othersOrdinary⟩ := Bool.and_eq_true_iff.1 rightOrdinary
          rw [Instruction.render_injective firstOrdinary otherOrdinary sameFirst,
            inductionHypothesis restOrdinary othersOrdinary sameRest]

theorem instructionTexts_render {code : Code} (ordinary : code.isOrdinary = true) :
    Listing.instructionTexts (Listing.render code) = code.map Instruction.render := by
  apply Listing.instructionTexts_render_of_lineSafe
  intro instruction member
  exact Instruction.lineSafe_render (List.all_eq_true.1 ordinary instruction member)

end Code

/-- Two lists of instructions in which every name is ordinary have the same listing only if they are
the same, whatever their lengths, literals, operators and numbers are and wherever operands are
empty. -/
theorem listing_unambiguous {left right : Code} (leftOrdinary : left.isOrdinary = true)
    (rightOrdinary : right.isOrdinary = true) :
    Listing.render left = Listing.render right ↔ left = right := by
  constructor
  · intro same
    apply Code.eq_of_map_render leftOrdinary rightOrdinary
    rw [← Code.instructionTexts_render leftOrdinary, ← Code.instructionTexts_render rightOrdinary,
      same]
  · exact congrArg Listing.render

/-- The text `t0 =  - -1` is told from `t0 = -1 - `, next to variables that are spelled like a jump
and like labels. -/
theorem listing_unambiguous_signs :
    let named : Code :=
      [.label (.function "if"), .assign (.slot (.var "goto")) (.slot (.var "L0")),
        .ifFalseGoto (.slot (.var "func_if")) (.block 0), .assign .ret .empty]
    let left := named ++ [.binary ⟨0⟩ .sub .empty (.const (-1))]
    let right := named ++ [.binary ⟨0⟩ .sub (.const (-1)) .empty]
    left.isOrdinary = true ∧ right.isOrdinary = true ∧
      Listing.render left ≠ Listing.render right := by
  intro named left right
  have leftOrdinary : left.isOrdinary = true := by decide
  have rightOrdinary : right.isOrdinary = true := by decide
  refine ⟨leftOrdinary, rightOrdinary, ?_⟩
  intro same
  exact absurd ((listing_unambiguous leftOrdinary rightOrdinary).1 same) (by decide)

end MiddleEnd
