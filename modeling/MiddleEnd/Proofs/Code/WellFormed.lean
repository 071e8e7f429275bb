import MiddleEnd.Proofs.Code.Labels

/-!
Contract: code that is closed and wired.

Closed code defines each label at most once and every label that it jumps to. Wired code writes
each temporary at most once and reads it at most once, and a temporary that is both written and
read is written before it is read, on a straight way: control can neither enter nor leave between
the two, so the read always sees that write. A temporary that is read and never written is the
result of a call.

Owns: the temporaries that an instruction reads and writes, straight instructions, and
`Code.WellFormed`.
Does not own: which code is well formed (`MiddleEnd.Proofs.Lowering.Wiring`) and which passes keep
it so (`MiddleEnd.Proofs.Optimizer.WellFormed`).
-/

namespace MiddleEnd

/-- The temporary that an operand reads. -/
def Operand.temp? : Operand → Option Temp
  | slot (.temp temporary) => some temporary
  | slot (.var _) => none
  | const _ => none
  | empty => none

/-- The temporaries that operands read, one for each operand that is a temporary. -/
def Operand.temps (operands : List Operand) : List Temp :=
  operands.flatMap fun operand => operand.temp?.toList

namespace Instruction

/-- The temporary that is written. -/
def temp? : Instruction → Option Temp
  | assign (.slot (.temp temporary)) _ => some temporary
  | binary dest _ _ _ => some dest
  | _ => none

/-- The operands that are read. -/
def operands : Instruction → List Operand
  | assign _ value => [value]
  | binary _ _ left right => [left, right]
  | label _ => []
  | goto _ => []
  | ifFalseGoto cond _ => [cond]

/-- The temporaries that are read. -/
def readTemps (instruction : Instruction) : List Temp := Operand.temps instruction.operands

/-- Whether control comes only from the instruction before and goes only to the one after: labels,
jumps and returns are not straight. -/
def isStraight : Instruction → Bool
  | assign .ret _ => false
  | assign .param _ => true
  | assign (.slot _) _ => true
  | binary _ _ _ _ => true
  | label _ => false
  | goto _ => false
  | ifFalseGoto _ _ => false

end Instruction

namespace Code

/-- How many instructions write a temporary. -/
def writeCount (code : Code) (temp : Temp) : Nat :=
  code.countP fun instruction => instruction.temp? = some temp

/-- How many operands read a temporary. -/
def readCount (code : Code) (temp : Temp) : Nat :=
  (code.flatMap Instruction.readTemps).count temp

/-- Some instruction before an index writes a temporary, and only instructions of one kind stand
between the two. -/
def WritesBefore (code : Code) (kind : Instruction → Bool) (temp : Temp) (index : Nat) : Prop :=
  ∃ source writer, source < index ∧ code[source]? = some writer ∧ writer.temp? = some temp ∧
    ∀ between other, source < between → between < index → code[between]? = some other →
      kind other = true

/-- A temporary that is read is written nowhere, or it is written before. -/
def Fed (code : Code) (kind : Instruction → Bool) : Prop :=
  ∀ index reader temp, code[index]? = some reader → temp ∈ reader.readTemps →
    code.writeCount temp = 0 ∨ code.WritesBefore kind temp index

/-- Closed and wired code. -/
structure WellFormed (code : Code) : Prop where
  labels : ∀ label, code.count (.label label) ≤ 1
  targets : ∀ instruction ∈ code, ∀ target, instruction.jumpTarget? = some target →
    code.count (.label target) = 1
  writes : ∀ temp, code.writeCount temp ≤ 1
  reads : ∀ temp, code.readCount temp ≤ 1
  fed : code.Fed Instruction.isStraight

variable {code front back : Code} {kind : Instruction → Bool} {temp : Temp} {index : Nat}

/-! ### Reads and writes -/

theorem readCount_append (front back : Code) (temp : Temp) :
    readCount (front ++ back) temp = front.readCount temp + back.readCount temp := by
  rw [readCount, List.flatMap_append, List.count_append, readCount, readCount]

theorem readCount_pos {reader : Instruction} (member : reader ∈ code)
    (reads : temp ∈ reader.readTemps) : 0 < code.readCount temp :=
  List.count_pos_iff.2 (List.mem_flatMap.2 ⟨reader, member, reads⟩)

theorem writeCount_append (front back : Code) (temp : Temp) :
    writeCount (front ++ back) temp = front.writeCount temp + back.writeCount temp :=
  List.countP_append

theorem writeCount_pos {writer : Instruction} (member : writer ∈ code)
    (writes : writer.temp? = some temp) : 0 < code.writeCount temp :=
  List.countP_pos_iff.2 ⟨writer, member, by simp [writes]⟩

section TwoPlaces

variable {first second : Nat} {early late : Instruction}

/-- Code can be cut between two places. -/
theorem mem_take_and_mem_drop (before : first < second) (atFirst : code[first]? = some early)
    (atSecond : code[second]? = some late) :
    early ∈ code.take second ∧ late ∈ code.drop second := by
  constructor
  · apply List.mem_of_getElem?
    rw [List.getElem?_take_of_lt before]
    exact atFirst
  · apply List.mem_of_getElem?
    rw [List.getElem?_drop, Nat.add_zero]
    exact atSecond

/-- Two places that read a temporary are two reads. -/
theorem two_le_readCount (before : first < second) (atFirst : code[first]? = some early)
    (atSecond : code[second]? = some late) (earlyReads : temp ∈ early.readTemps)
    (lateReads : temp ∈ late.readTemps) : 2 ≤ code.readCount temp := by
  obtain ⟨inFront, inBack⟩ := mem_take_and_mem_drop before atFirst atSecond
  have frontReads := readCount_pos inFront earlyReads
  have backReads := readCount_pos inBack lateReads
  rw [← List.take_append_drop second code, readCount_append]
  omega

/-- Two places that write a temporary are two writes. -/
theorem two_le_writeCount (before : first < second) (atFirst : code[first]? = some early)
    (atSecond : code[second]? = some late) (earlyWrites : early.temp? = some temp)
    (lateWrites : late.temp? = some temp) : 2 ≤ code.writeCount temp := by
  obtain ⟨inFront, inBack⟩ := mem_take_and_mem_drop before atFirst atSecond
  have frontWrites := writeCount_pos inFront earlyWrites
  have backWrites := writeCount_pos inBack lateWrites
  rw [← List.take_append_drop second code, writeCount_append]
  omega

end TwoPlaces

/-! ### Written before -/

theorem WritesBefore.mono {other : Instruction → Bool}
    (weaker : ∀ instruction, kind instruction = true → other instruction = true)
    (written : code.WritesBefore kind temp index) : code.WritesBefore other temp index := by
  obtain ⟨source, writer, before, atSource, writes, between⟩ := written
  refine ⟨source, writer, before, atSource, writes, ?_⟩
  intro middle instruction after below here
  exact weaker instruction (between middle instruction after below here)

theorem WritesBefore.left (written : front.WritesBefore kind temp index)
    (inside : index ≤ front.length) (back : Code) :
    (front ++ back).WritesBefore kind temp index := by
  obtain ⟨source, writer, before, atSource, writes, between⟩ := written
  refine ⟨source, writer, before, ?_, writes, ?_⟩
  · rw [List.getElem?_append_left (by omega)]
    exact atSource
  · intro middle other after below here
    rw [List.getElem?_append_left (by omega)] at here
    exact between middle other after below here

theorem WritesBefore.right (written : back.WritesBefore kind temp index) (front : Code) :
    (front ++ back).WritesBefore kind temp (front.length + index) := by
  obtain ⟨source, writer, before, atSource, writes, between⟩ := written
  refine ⟨front.length + source, writer, by omega, ?_, writes, ?_⟩
  · rw [List.getElem?_append_right (by omega), Nat.add_sub_cancel_left]
    exact atSource
  · intro middle other after below here
    rw [List.getElem?_append_right (by omega)] at here
    exact between (middle - front.length) other (by omega) (by omega) here

/-- What code of one kind writes is written before its end. -/
theorem writesBefore_end (uniform : ∀ instruction ∈ code, kind instruction = true)
    (written : code.writeCount temp ≠ 0) : code.WritesBefore kind temp code.length := by
  obtain ⟨writer, member, writes⟩ := List.countP_pos_iff.1 (Nat.pos_of_ne_zero written)
  obtain ⟨source, inside, here⟩ := List.getElem_of_mem member
  refine ⟨source, writer, inside, ?_, by simpa using writes, ?_⟩
  · rw [List.getElem?_eq_getElem inside, here]
  · intro middle other _ _ there
    exact uniform other (List.mem_of_getElem? there)

theorem Fed.mono {other : Instruction → Bool}
    (weaker : ∀ instruction, kind instruction = true → other instruction = true)
    (fed : code.Fed kind) : code.Fed other := by
  intro index reader temp here reads
  exact (fed index reader temp here reads).imp id (WritesBefore.mono weaker)

/-- Where a temporary is written only once, that write is the one that a read sees. -/
theorem Fed.of_write (fed : code.Fed kind) (once : code.writeCount temp ≤ 1) {source : Nat}
    {writer reader : Instruction} (atSource : code[source]? = some writer)
    (writes : writer.temp? = some temp) (atIndex : code[index]? = some reader)
    (reads : temp ∈ reader.readTemps) :
    source < index ∧ ∀ between other, source < between → between < index →
      code[between]? = some other → kind other = true := by
  have written := writeCount_pos (List.mem_of_getElem? atSource) writes
  rcases fed index reader temp atIndex reads with never | before
  · omega
  · obtain ⟨place, other, below, atPlace, otherWrites, uniform⟩ := before
    have same : place = source := by
      rcases Nat.lt_trichotomy place source with early | same | late
      · have twice := two_le_writeCount early atPlace atSource otherWrites writes
        omega
      · exact same
      · have twice := two_le_writeCount late atSource atPlace writes otherWrites
        omega
    rw [← same]
    exact ⟨below, uniform⟩

/-- An instruction after code of one kind sees all that the code has written. -/
theorem Fed.concat (fed : code.Fed kind)
    (uniform : ∀ instruction ∈ code, kind instruction = true) {last : Instruction}
    (apart : ∀ temp, last.temp? = some temp → code.readCount temp = 0 ∧ temp ∉ last.readTemps) :
    Fed (code ++ [last]) kind := by
  have silent : ∀ temp, last.temp? ≠ some temp → writeCount [last] temp = 0 := by
    intro temp different
    simp [writeCount, different]
  intro index reader temp here reads
  rw [writeCount_append]
  by_cases inside : index < code.length
  · rw [List.getElem?_append_left inside] at here
    have read := readCount_pos (List.mem_of_getElem? here) reads
    rw [silent temp (fun writes => by have := (apart temp writes).1; omega), Nat.add_zero]
    refine (fed index reader temp here reads).imp id ?_
    intro written
    exact written.left (Nat.le_of_lt inside) [last]
  · rw [List.getElem?_append_right (by omega), List.getElem?_singleton] at here
    split at here
    · cases here
      rw [silent temp (fun writes => (apart temp writes).2 reads), Nat.add_zero,
        show index = code.length by omega]
      by_cases unwritten : code.writeCount temp = 0
      · exact Or.inl unwritten
      · exact Or.inr ((writesBefore_end uniform unwritten).left (Nat.le_refl _) [last])
    · cases here

/-- Pieces that do not write what the other one reads are fed together if each is fed. -/
theorem Fed.append (fedFront : front.Fed kind) (fedBack : back.Fed kind)
    (frontApart : ∀ temp, front.readCount temp ≠ 0 → back.writeCount temp = 0)
    (backApart : ∀ temp, back.readCount temp ≠ 0 → front.writeCount temp = 0) :
    Fed (front ++ back) kind := by
  intro index reader temp here reads
  rw [writeCount_append]
  by_cases inFront : index < front.length
  · rw [List.getElem?_append_left inFront] at here
    have read := readCount_pos (List.mem_of_getElem? here) reads
    rw [frontApart temp (by omega), Nat.add_zero]
    refine (fedFront index reader temp here reads).imp id ?_
    intro written
    exact written.left (Nat.le_of_lt inFront) back
  · rw [List.getElem?_append_right (by omega)] at here
    have read := readCount_pos (List.mem_of_getElem? here) reads
    rw [backApart temp (by omega), Nat.zero_add]
    refine (fedBack (index - front.length) reader temp here reads).imp id ?_
    intro written
    have shifted := written.right front
    rwa [Nat.add_sub_cancel' (by omega)] at shifted

end Code

end MiddleEnd
