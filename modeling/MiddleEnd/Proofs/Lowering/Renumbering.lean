import MiddleEnd.Proofs.Lowering.Meaning
import MiddleEnd.Proofs.Lowering.Wiring

/-!
Contract: what is lowered later differs only in its numbers.

A piece that is lowered after other pieces takes its temporaries and block labels from a supply that
these have used. Its code is the code that it has from a fresh supply, with all numbers increased by
what was used before (`lowerStmts_after`). So the code of two programs in a row is the code of the
first, followed by the code of the second in which only numbers have changed (`lower_append`).

Owns: renumbered code, and that lowering from a used supply renumbers.
Does not own: which numbers code has (`MiddleEnd.Proofs.Lowering.Names`,
`MiddleEnd.Proofs.Lowering.Wiring`).
-/

namespace MiddleEnd

/-! ### Renumbered code -/

/-- A number increased by an amount. -/
def shiftWord (amount : Nat) (word : UInt32) : UInt32 := UInt32.ofNat (word.toNat + amount)

def Temp.shift (amount : Nat) (temp : Temp) : Temp := ⟨shiftWord amount temp.index⟩

def Slot.shift (amount : Nat) : Slot → Slot
  | var name => var name
  | temp temporary => temp (temporary.shift amount)

def Operand.shift (amount : Nat) : Operand → Operand
  | const value => const value
  | slot place => slot (place.shift amount)
  | empty => empty

def Dest.shift (amount : Nat) : Dest → Dest
  | slot place => slot (place.shift amount)
  | ret => ret
  | param => param

/-- A block label with its number increased. The entry of a function has no number. -/
def Label.shift (amount : Nat) : Label → Label
  | block index => block (shiftWord amount index)
  | function name => function name

/-- The instruction with the numbers of its temporaries and of its block labels increased by what a
supply has given out of each. -/
def Instruction.renumber (used : NameSupply) : Instruction → Instruction
  | assign dest value => assign (dest.shift used.temps) (value.shift used.temps)
  | binary dest op left right =>
      binary (dest.shift used.temps) op (left.shift used.temps) (right.shift used.temps)
  | label name => label (name.shift used.labels)
  | goto target => goto (target.shift used.labels)
  | ifFalseGoto cond target => ifFalseGoto (cond.shift used.temps) (target.shift used.labels)

def Code.renumber (used : NameSupply) (code : Code) : Code := code.map (Instruction.renumber used)

theorem Code.renumber_append (used : NameSupply) (front back : Code) :
    (front ++ back).renumber used = front.renumber used ++ back.renumber used :=
  List.map_append

/-- The temporaries that an instruction writes or reads. -/
def Instruction.temps (instruction : Instruction) : List Temp :=
  instruction.temp?.toList ++ instruction.readTemps

/-- The number of a block label. -/
def Label.block? : Label → Option UInt32
  | block index => some index
  | function _ => none

/-- The block labels that an instruction defines or jumps to. -/
def Instruction.blocks (instruction : Instruction) : List UInt32 :=
  instruction.block?.toList ++ (instruction.jumpTarget?.bind Label.block?).toList

/-- Increasing a number is exact if the sum is a number. -/
theorem toNat_shiftWord {amount : Nat} {word : UInt32} (few : word.toNat + amount < 2 ^ 32) :
    (shiftWord amount word).toNat = word.toNat + amount :=
  UInt32.toNat_ofNat_of_lt' few

theorem shiftWord_ofNat (amount number : Nat) :
    shiftWord amount (UInt32.ofNat number) = UInt32.ofNat (amount + number) := by
  rw [← UInt32.toNat_inj, shiftWord, UInt32.toNat_ofNat', UInt32.toNat_ofNat', UInt32.toNat_ofNat',
    Nat.mod_add_mod, Nat.add_comm]

namespace NameSupply

/-- The supply that has given out what two supplies have given out together. -/
def after (used names : NameSupply) : NameSupply :=
  ⟨used.temps + names.temps, used.labels + names.labels⟩

variable (used names : NameSupply)

theorem takeTemp_after : (used.after names).takeTemp = used.after names.takeTemp := rfl

theorem takeLabel_after : (used.after names).takeLabel = used.after names.takeLabel := rfl

theorem nextTemp_after : (used.after names).nextTemp = names.nextTemp.shift used.temps :=
  congrArg Temp.mk (shiftWord_ofNat _ _).symm

theorem nextLabel_after : (used.after names).nextLabel = names.nextLabel.shift used.labels :=
  congrArg Label.block (shiftWord_ofNat _ _).symm

end NameSupply

namespace Lowering

open NameSupply

/-! ### Lowering from a used supply -/

/-- The fragment as it is lowered after others. -/
def Fragment.renumber (used : NameSupply) (fragment : Fragment) : Fragment :=
  ⟨fragment.code.renumber used, used.after fragment.names⟩

def Value.renumber (used : NameSupply) (value : Value) : Value :=
  ⟨value.toFragment.renumber used, value.operand.shift used.temps⟩

section Parts

variable (used : NameSupply)

theorem Fragment.code_renumber (fragment : Fragment) :
    (fragment.renumber used).code = fragment.code.renumber used := rfl

theorem Fragment.names_renumber (fragment : Fragment) :
    (fragment.renumber used).names = used.after fragment.names := rfl

theorem Value.code_renumber (value : Value) :
    (value.renumber used).code = value.code.renumber used := rfl

theorem Value.names_renumber (value : Value) :
    (value.renumber used).names = used.after value.names := rfl

theorem Value.operand_renumber (value : Value) :
    (value.renumber used).operand = value.operand.shift used.temps := rfl

/-- The parts of a branch, each renumbered, make the renumbered branch. -/
theorem branchCode_renumber (cond : Value) (elseLabel endLabel : Label)
    (thenCode elseCode : Code) :
    branchCode (cond.renumber used) (elseLabel.shift used.labels) (endLabel.shift used.labels)
        (thenCode.renumber used) (elseCode.renumber used) =
      (branchCode cond elseLabel endLabel thenCode elseCode).renumber used := by
  simp only [branchCode, Value.code_renumber, Value.operand_renumber, Code.renumber_append]
  rfl

theorem loopCode_renumber (cond : Value) (startLabel endLabel : Label) (bodyCode : Code) :
    loopCode (cond.renumber used) (startLabel.shift used.labels) (endLabel.shift used.labels)
        (bodyCode.renumber used) =
      (loopCode cond startLabel endLabel bodyCode).renumber used := by
  simp only [loopCode, Value.code_renumber, Value.operand_renumber, Code.renumber_append]
  rfl

end Parts

variable (table : Table) (scope : String) (used : NameSupply)

mutual

theorem lowerExpr_after (names : NameSupply) : ∀ expr : Expr,
    lowerExpr table scope (used.after names) expr =
      (lowerExpr table scope names expr).renumber used
  | .binary op left right => by
      simp only [lowerExpr, lowerExpr_after names left, Value.names_renumber,
        lowerExpr_after _ right, nextTemp_after, takeTemp_after]
      simp only [Value.renumber, Fragment.renumber, Code.renumber_append]
      rfl
  | .ident _ => rfl
  | .int _ => rfl
  | .paren inner => lowerExpr_after names inner
  | .call _ args => by
      simp only [lowerExpr, lowerArgs_after names args, Fragment.names_renumber, nextTemp_after,
        takeTemp_after]
      rfl

theorem lowerArgs_after (names : NameSupply) : ∀ args : List Expr,
    lowerArgs table scope (used.after names) args =
      (lowerArgs table scope names args).renumber used
  | [] => rfl
  | arg :: rest => by
      simp only [lowerArgs, lowerExpr_after names arg, Value.names_renumber,
        lowerArgs_after _ rest]
      simp only [Value.renumber, Fragment.renumber, Code.renumber_append]
      rfl

end

/-- An expression, and an assignment of its value. -/
theorem evalThen_after (names : NameSupply) (dest : Dest) (expr : Expr) :
    let value := lowerExpr table scope (used.after names) expr
    let original := lowerExpr table scope names expr
    Fragment.mk (value.code ++ [.assign (dest.shift used.temps) value.operand]) value.names =
      (Fragment.mk (original.code ++ [.assign dest original.operand]) original.names).renumber
        used := by
  simp only [lowerExpr_after, Fragment.renumber, Code.renumber_append]
  rfl

theorem lowerStore_after (names : NameSupply) (target : Ident) (expr : Expr) :
    lowerStore table scope (used.after names) target expr =
      (lowerStore table scope names target expr).renumber used :=
  evalThen_after table scope used names (.slot (.var _)) expr

theorem lowerDeclaration_after (names : NameSupply) (declaration : Declaration) :
    lowerDeclaration table scope (used.after names) declaration =
      (lowerDeclaration table scope names declaration).renumber used := by
  unfold lowerDeclaration
  cases declaration.init with
  | none => rfl
  | some init => exact lowerStore_after table scope used names declaration.name init

theorem lowerAssignment_after (names : NameSupply) (assignment : Assignment) :
    lowerAssignment table scope (used.after names) assignment =
      (lowerAssignment table scope names assignment).renumber used :=
  lowerStore_after table scope used names assignment.target assignment.value

theorem lowerInit_after (names : NameSupply) (init : LoopInit) :
    lowerInit table scope (used.after names) init =
      (lowerInit table scope names init).renumber used := by
  cases init with
  | declare declaration => exact lowerDeclaration_after table scope used names declaration
  | assign assignment => exact lowerAssignment_after table scope used names assignment

theorem lowerReturn_after (names : NameSupply) (value : Option Expr) :
    lowerReturn table scope (used.after names) value =
      (lowerReturn table scope names value).renumber used := by
  cases value with
  | none => rfl
  | some expr => exact evalThen_after table scope used names .ret expr

mutual

theorem lowerStmt_after (names : NameSupply) : ∀ stmt : Stmt,
    lowerStmt table scope (used.after names) stmt =
      (lowerStmt table scope names stmt).renumber used
  | .declare declaration => lowerDeclaration_after table scope used names declaration
  | .assign assignment => lowerAssignment_after table scope used names assignment
  | .branch cond thenBlock none => by
      simp only [lowerStmt, lowerExpr_after, Value.names_renumber, takeLabel_after,
        nextLabel_after, lowerStmts_after _ thenBlock]
      exact congrArg (Fragment.mk · _) (branchCode_renumber used _ _ _ _ [])
  | .branch cond thenBlock (some elseBlock) => by
      simp only [lowerStmt, lowerExpr_after, Value.names_renumber, takeLabel_after,
        nextLabel_after, lowerStmts_after _ thenBlock, Fragment.names_renumber,
        lowerStmts_after _ elseBlock]
      exact congrArg (Fragment.mk · _) (branchCode_renumber used _ _ _ _ _)
  | .whileLoop cond body => by
      simp only [lowerStmt, takeLabel_after, nextLabel_after, lowerExpr_after,
        Value.names_renumber, lowerStmts_after _ body]
      exact congrArg (Fragment.mk · _) (loopCode_renumber used _ _ _ _)
  | .forLoop init cond update body => by
      simp only [lowerStmt, lowerInit_after, Fragment.names_renumber, takeLabel_after,
        nextLabel_after, lowerExpr_after, Value.names_renumber, lowerStmts_after _ body,
        lowerAssignment_after, Fragment.code_renumber, ← Code.renumber_append, loopCode_renumber]
      rfl
  | .ret value => lowerReturn_after table scope used names value
  | .call callee args => by
      rw [lowerStmt, lowerExpr_after]
      rfl
  | .block stmts => lowerStmts_after names stmts

theorem lowerStmts_after (names : NameSupply) : ∀ stmts : List Stmt,
    lowerStmts table scope (used.after names) stmts =
      (lowerStmts table scope names stmts).renumber used
  | [] => rfl
  | stmt :: rest => by
      simp only [lowerStmts, lowerStmt_after names stmt, Fragment.names_renumber,
        lowerStmts_after _ rest]
      simp only [Fragment.renumber, Code.renumber_append]

end

theorem lowerFunctions_after (names : NameSupply) (functions : List FunctionDecl) :
    lowerFunctions table (used.after names) functions =
      (lowerFunctions table names functions).renumber used := by
  induction functions generalizing names with
  | nil => rfl
  | cons function rest inductionHypothesis =>
      simp only [lowerFunctions, lowerFunction, lowerStmts_after, Fragment.names_renumber,
        inductionHypothesis]
      simp only [Fragment.renumber, Code.renumber_append]
      rfl

/-! ### The numbers of a program -/

variable {table} {functions : List FunctionDecl} {instruction : Instruction}

/-- The temporaries that the code of functions mentions are among those that it takes. -/
theorem temp_lt_of_mem
    (few : (lowerFunctions table .start functions).names.temps ≤ 2 ^ 32)
    (member : instruction ∈ (lowerFunctions table .start functions).code) {temp : Temp}
    (mentions : temp ∈ instruction.temps) :
    temp.index.toNat < (lowerFunctions table .start functions).names.temps := by
  have wired := wired_lowerFunctions table .start functions
  have counted : 0 < span 0 (lowerFunctions table .start functions).names.temps
      temp.index.toNat := by
    rcases List.mem_append.1 mentions with writes | reads
    · apply Nat.lt_of_lt_of_le _ (wired.writes.writes few temp)
      exact List.countP_pos_iff.2 ⟨instruction, member, by simpa using writes⟩
    · exact Nat.lt_of_lt_of_le (Code.readCount_pos member reads) (wired.reads few temp)
  rw [span] at counted
  split at counted <;> omega

/-- The block labels that the code of functions defines or jumps to are among those that it
takes. -/
theorem block_lt_of_mem
    (few : (lowerFunctions table .start functions).names.labels ≤ 2 ^ 32)
    (member : instruction ∈ (lowerFunctions table .start functions).code) {block : UInt32}
    (mentions : block ∈ instruction.blocks) :
    block.toNat < (lowerFunctions table .start functions).names.labels := by
  have defines := (draws_lowerFunctions table .start functions).labels.defines few block
  have counted : 0 < (lowerFunctions table .start functions).code.labelCount block := by
    rcases List.mem_append.1 mentions with defined | jumps
    · exact List.countP_pos_iff.2 ⟨instruction, member, by simpa using defined⟩
    · obtain ⟨target, jumpsTo, isBlock⟩ := Option.bind_eq_some_iff.1 (Option.mem_toList.1 jumps)
      obtain ⟨index, rfl, defined⟩ :=
        jumps_lowerFunctions table .start functions instruction member target jumpsTo
      cases isBlock
      rw [Code.labelCount_eq_count]
      exact List.count_pos_iff.2 defined
  rw [defines, span] at counted
  split at counted <;> omega

end Lowering

/-- The code of two programs in a row is that of the first, followed by that of the second with each
temporary renumbered by the number of temporaries that the first takes, and each block label by the
number of its block labels. As long as fewer than 2^32 names of a kind are taken in all, each number
grows by exactly that much. -/
theorem lower_append (table : Table) (front back : Program)
    (fewTemps : (Lowering.lowerFunctions table .start
      (front.functions ++ back.functions)).names.temps < 2 ^ 32)
    (fewLabels : (Lowering.lowerFunctions table .start
      (front.functions ++ back.functions)).names.labels < 2 ^ 32) :
    let used := (Lowering.lowerFunctions table .start front.functions).names
    Program.lower ⟨front.functions ++ back.functions⟩ table =
        front.lower table ++ (back.lower table).renumber used ∧
      ∀ instruction ∈ back.lower table,
        (∀ temp ∈ instruction.temps,
          (temp.shift used.temps).index.toNat = temp.index.toNat + used.temps) ∧
        ∀ block ∈ instruction.blocks,
          (shiftWord used.labels block).toNat = block.toNat + used.labels := by
  intro used
  let own := (Lowering.lowerFunctions table .start back.functions).names
  have later : Lowering.lowerFunctions table used back.functions =
      (Lowering.lowerFunctions table .start back.functions).renumber used :=
    Lowering.lowerFunctions_after table used .start back.functions
  have joined : Lowering.lowerFunctions table .start (front.functions ++ back.functions) =
      ⟨front.lower table ++ (back.lower table).renumber used, used.after own⟩ := by
    rw [Lowering.lowerFunctions_append]
    simp only [used, own, later, Lowering.Fragment.renumber, Program.lower]
  rw [joined] at fewTemps fewLabels
  have fewTogether : used.temps + own.temps < 2 ^ 32 := fewTemps
  have fewBlocks : used.labels + own.labels < 2 ^ 32 := fewLabels
  refine ⟨congrArg Lowering.Fragment.code joined, ?_⟩
  intro instruction member
  constructor
  · intro temp mentions
    have fewOwn : own.temps ≤ 2 ^ 32 := by omega
    have below : temp.index.toNat < own.temps := Lowering.temp_lt_of_mem fewOwn member mentions
    exact toNat_shiftWord (by omega)
  · intro block mentions
    have fewOwn : own.labels ≤ 2 ^ 32 := by omega
    have below : block.toNat < own.labels := Lowering.block_lt_of_mem fewOwn member mentions
    exact toNat_shiftWord (by omega)

open Shorthand in
/-- The loop of the second program jumps to labels that come after those of the first one's branch,
and the operation in its condition takes the third temporary. -/
theorem lower_append_loop :
    let first : Program := ⟨[function "first" ["n"]
      [branch (call "second" [binary .add (var "n") (int 1)]) [ret none] none]]⟩
    let second : Program := ⟨[function "second" ["n"]
      [whileLoop (binary .gt (var "n") (int 0)) [assign "n" (int 0)]]]⟩
    let names := (Lowering.lowerFunctions .start .start
      (first.functions ++ second.functions)).names
    let used := (Lowering.lowerFunctions .start .start first.functions).names
    names.temps < 2 ^ 32 ∧ names.labels < 2 ^ 32 ∧ used = ⟨2, 2⟩ ∧
      Program.lower ⟨first.functions ++ second.functions⟩ .start =
        first.lower .start ++ (second.lower .start).renumber used ∧
      (second.lower .start).renumber used =
        [.label (.function "second"),
          .label (.block 2),
          .binary ⟨2⟩ .gt (.slot (.var "n")) (.const 0),
          .ifFalseGoto (.slot (.temp ⟨2⟩)) (.block 3),
          .assign (.slot (.var "n")) (.const 0),
          .goto (.block 2),
          .label (.block 3)] := by
  intro first second names used
  have fewTemps : names.temps < 2 ^ 32 := by decide
  have fewLabels : names.labels < 2 ^ 32 := by decide
  exact ⟨fewTemps, fewLabels, by decide,
    (lower_append .start first second fewTemps fewLabels).1, by decide⟩

end MiddleEnd
