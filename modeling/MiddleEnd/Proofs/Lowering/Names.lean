import Mathlib.Algebra.Group.Nat.Defs
import MiddleEnd.Lowering
import MiddleEnd.Proofs.Code.WellFormed

/-!
Contract: which names lowered code makes up, and where.

The temporaries that a piece of code writes are among those that it takes from the supply, and each
is written at most once. The block labels that it defines are exactly those that it takes, and each
is defined once. Both are told by counting, so they add up when pieces are joined, whatever the
order of the pieces.

Owns: the counts for every piece of lowered code, and that a piece of code owns its temporaries.
Does not own: what the code does.
-/

namespace MiddleEnd

/-- Whether a number lies in a span, as a count. -/
def span (first last number : Nat) : Nat :=
  if first ≤ number ∧ number < last then 1 else 0

theorem span_self (bound number : Nat) : span bound bound number = 0 := by
  rw [span, if_neg (by omega)]

theorem span_le_one (first last number : Nat) : span first last number ≤ 1 := by
  rw [span]
  split <;> omega

theorem span_add {first middle last : Nat} (below : first ≤ middle) (above : middle ≤ last)
    (number : Nat) : span first middle number + span middle last number =
      span first last number := by
  simp only [span]
  split <;> split <;> split <;> omega

theorem span_succ (bound number : Nat) :
    span bound (bound + 1) number = if number = bound then 1 else 0 := by
  simp only [span]
  split <;> split <;> omega

theorem ofNat_eq_iff {number : Nat} (few : number < 2 ^ 32) (word : UInt32) :
    UInt32.ofNat number = word ↔ word.toNat = number := by
  have exactly : (UInt32.ofNat number).toNat = number := UInt32.toNat_ofNat_of_lt' few
  rw [← UInt32.toNat_inj, exactly]
  exact eq_comm

theorem NameSupply.nextTemp_eq_iff {names : NameSupply} (few : names.temps < 2 ^ 32)
    (temp : Temp) : names.nextTemp = temp ↔ temp.index.toNat = names.temps := by
  cases temp with
  | mk index => rw [nextTemp, Temp.mk.injEq, ofNat_eq_iff few]

namespace Code

/-- The temporaries that code writes are numbered from `first` up to but not including `last`, and
none is written twice. -/
structure Numbered (first : Nat) (code : Code) (last : Nat) : Prop where
  le : first ≤ last
  writes : last ≤ 2 ^ 32 → ∀ temp, code.writeCount temp ≤ span first last temp.index.toNat

/-- The block labels that code defines are those from `first` up to but not including `last`, each
once. -/
structure Labelled (first : Nat) (code : Code) (last : Nat) : Prop where
  le : first ≤ last
  defines : last ≤ 2 ^ 32 → ∀ block, code.labelCount block = span first last block.toNat

variable {first middle last : Nat} {code front back : Code}

theorem Numbered.silent (instruction : Instruction) (silent : instruction.temp? = none)
    (bound : Nat) : Numbered bound [instruction] bound := by
  refine ⟨Nat.le_refl _, ?_⟩
  intro _ temp
  simp [writeCount, silent]

theorem Numbered.append (left : Numbered first front middle) (right : Numbered middle back last) :
    Numbered first (front ++ back) last := by
  refine ⟨Nat.le_trans left.le right.le, ?_⟩
  intro few temp
  have before := left.writes (Nat.le_trans right.le few) temp
  have after := right.writes few temp
  rw [writeCount_append, ← span_add left.le right.le]
  exact Nat.add_le_add before after

theorem Labelled.append (left : Labelled first front middle) (right : Labelled middle back last) :
    Labelled first (front ++ back) last := by
  refine ⟨Nat.le_trans left.le right.le, ?_⟩
  intro few block
  rw [labelCount_append, left.defines (Nat.le_trans right.le few) block, right.defines few block,
    span_add left.le right.le]

/-- Code that takes its temporaries and block labels from one supply and leaves another. -/
structure Draws (before : NameSupply) (code : Code) (after : NameSupply) : Prop where
  temps : Numbered before.temps code after.temps
  labels : Labelled before.labels code after.labels

namespace Draws

variable {before between after : NameSupply}

theorem nil (names : NameSupply) : Draws names [] names where
  temps := ⟨Nat.le_refl _, fun _ _ => Nat.zero_le _⟩
  labels := ⟨Nat.le_refl _, fun _ _ => (span_self _ _).symm⟩

theorem append (left : Draws before front between) (right : Draws between back after) :
    Draws before (front ++ back) after :=
  ⟨left.temps.append right.temps, left.labels.append right.labels⟩

theorem of_perm (moved : List.Perm code front) (draws : Draws before front after) :
    Draws before code after where
  temps := by
    refine ⟨draws.temps.le, ?_⟩
    intro few temp
    rw [writeCount, moved.countP_eq]
    exact draws.temps.writes few temp
  labels := by
    refine ⟨draws.labels.le, ?_⟩
    intro few block
    rw [labelCount, moved.countP_eq]
    exact draws.labels.defines few block

/-- An instruction that makes up no name. -/
theorem plain (instruction : Instruction) (silent : instruction.temp? = none)
    (noLabel : instruction.block? = none) (names : NameSupply) :
    Draws names [instruction] names where
  temps := .silent instruction silent _
  labels := by
    refine ⟨Nat.le_refl _, ?_⟩
    intro _ block
    rw [span_self, labelCount, List.countP_singleton]
    simp [noLabel]

/-- A temporary may be taken without being written. -/
theorem idle (names : NameSupply) : Draws names [] names.takeTemp where
  temps := ⟨Nat.le_succ _, fun _ _ => Nat.zero_le _⟩
  labels := (nil names).labels

theorem binary (names : NameSupply) (op : Operator) (left right : Operand) :
    Draws names [.binary names.nextTemp op left right] names.takeTemp where
  temps := by
    refine ⟨Nat.le_succ _, ?_⟩
    intro few temp
    have written := NameSupply.nextTemp_eq_iff (Nat.lt_of_succ_le few) temp
    rw [writeCount, List.countP_singleton, NameSupply.takeTemp, span_succ]
    simp [Instruction.temp?, written]
  labels := by
    refine ⟨Nat.le_refl _, ?_⟩
    intro _ block
    rw [NameSupply.takeTemp, span_self]
    rfl

theorem label (names : NameSupply) : Draws names [.label names.nextLabel] names.takeLabel where
  temps := .silent _ rfl _
  labels := by
    refine ⟨Nat.le_succ _, ?_⟩
    intro few block
    have defined := ofNat_eq_iff (Nat.lt_of_succ_le few) block
    rw [labelCount, List.countP_singleton, NameSupply.takeLabel, span_succ]
    simp [NameSupply.nextLabel, Instruction.block?, defined]

end Draws

/-- Code is the only one in some whole code to write the temporaries of a span. -/
structure Owns (whole : Code) (first : Nat) (code : Code) (last : Nat) : Prop where
  few : last ≤ 2 ^ 32
  same : ∀ temp : Temp, first ≤ temp.index.toNat → temp.index.toNat < last →
    whole.writeCount temp = code.writeCount temp

namespace Owns

variable {whole : Code}

theorem left (owns : whole.Owns first (front ++ back) last) (rest : Numbered middle back last) :
    whole.Owns first front middle := by
  refine ⟨Nat.le_trans rest.le owns.few, ?_⟩
  intro temp above below
  have outside := rest.writes owns.few temp
  rw [span, if_neg (by omega)] at outside
  rw [owns.same temp above (Nat.lt_of_lt_of_le below rest.le), writeCount_append]
  omega

theorem right (owns : whole.Owns first (front ++ back) last) (start : Numbered first front middle)
    (le : middle ≤ last) : whole.Owns middle back last := by
  refine ⟨owns.few, ?_⟩
  intro temp above below
  have outside := start.writes (Nat.le_trans le owns.few) temp
  rw [span, if_neg (by omega)] at outside
  rw [owns.same temp (Nat.le_trans start.le above) below, writeCount_append]
  omega

/-- A temporary that the code takes at last and does not write is written nowhere. -/
theorem idle {names : NameSupply} (owns : whole.Owns first code (names.temps + 1))
    (numbered : Numbered first code names.temps) : whole.writeCount names.nextTemp = 0 := by
  have few : names.temps < 2 ^ 32 := Nat.lt_of_succ_le owns.few
  have number := (NameSupply.nextTemp_eq_iff few names.nextTemp).1 rfl
  have outside := numbered.writes (Nat.le_of_lt few) names.nextTemp
  rw [span, if_neg (by omega)] at outside
  rw [owns.same names.nextTemp (number ▸ numbered.le) (by omega)]
  omega

end Owns

end Code

namespace Lowering

open Code (Draws)

variable (table : Table) (scope : String)

/-! ### The names of each piece -/

mutual

theorem draws_lowerExpr (names : NameSupply) : ∀ expr : Expr,
    Draws names (lowerExpr table scope names expr).code (lowerExpr table scope names expr).names
  | .binary op left right =>
      ((draws_lowerExpr names left).append (draws_lowerExpr _ right)).append (.binary _ op _ _)
  | .ident _ => .nil names
  | .int _ => .nil names
  | .paren inner => draws_lowerExpr names inner
  | .call _ args => by
      have passed := (draws_lowerArgs names args).append (.idle _)
      rw [List.append_nil] at passed
      exact passed

theorem draws_lowerArgs (names : NameSupply) : ∀ args : List Expr,
    Draws names (lowerArgs table scope names args).code (lowerArgs table scope names args).names
  | [] => .nil names
  | arg :: rest =>
      ((draws_lowerExpr names arg).append (.plain (.assign .param _) rfl rfl _)).append
        (draws_lowerArgs _ rest)

end

theorem draws_lowerStore (names : NameSupply) (target : Ident) (expr : Expr) :
    Draws names (lowerStore table scope names target expr).code
      (lowerStore table scope names target expr).names :=
  (draws_lowerExpr table scope names expr).append (.plain (.assign (.slot (.var _)) _) rfl rfl _)

theorem draws_lowerDeclaration (names : NameSupply) (declaration : Declaration) :
    Draws names (lowerDeclaration table scope names declaration).code
      (lowerDeclaration table scope names declaration).names := by
  unfold lowerDeclaration
  cases declaration.init with
  | none => exact .nil names
  | some init => exact draws_lowerStore table scope names declaration.name init

theorem draws_lowerInit (names : NameSupply) (init : LoopInit) :
    Draws names (lowerInit table scope names init).code
      (lowerInit table scope names init).names := by
  cases init with
  | declare declaration => exact draws_lowerDeclaration table scope names declaration
  | assign assignment => exact draws_lowerStore table scope names _ _

theorem draws_lowerReturn (names : NameSupply) (value : Option Expr) :
    Draws names (lowerReturn table scope names value).code
      (lowerReturn table scope names value).names := by
  cases value with
  | none => exact .plain (.assign .ret _) rfl rfl names
  | some expr =>
      exact (draws_lowerExpr table scope names expr).append (.plain (.assign .ret _) rfl rfl _)

theorem draws_branchCode {before between after : NameSupply} {cond : Value}
    {thenCode elseCode : Code} (test : Draws before cond.code cond.names)
    (first : Draws cond.names.takeLabel.takeLabel thenCode between)
    (second : Draws between elseCode after) :
    Draws before (branchCode cond cond.names.nextLabel cond.names.takeLabel.nextLabel thenCode
      elseCode) after := by
  -- The labels are taken before the blocks are lowered, but defined after them.
  have jump := Draws.plain (.ifFalseGoto cond.operand cond.names.nextLabel) rfl rfl cond.names
  have labels := (Draws.label cond.names).append (.label _)
  have skip := Draws.plain (.goto cond.names.takeLabel.nextLabel) rfl rfl between
  have inOrder := (((test.append jump).append labels).append first).append (skip.append second)
  refine inOrder.of_perm ?_
  rw [branchCode, List.perm_iff_count]
  intro instruction
  simp only [List.count_append, List.count_cons, List.count_nil]
  omega

theorem draws_loopCode {before after : NameSupply} {cond : Value} {bodyCode : Code}
    (test : Draws before.takeLabel.takeLabel cond.code cond.names)
    (body : Draws cond.names bodyCode after) :
    Draws before (loopCode cond before.nextLabel before.takeLabel.nextLabel bodyCode) after := by
  have labels := (Draws.label before).append (.label _)
  have jump := Draws.plain (.ifFalseGoto cond.operand before.takeLabel.nextLabel) rfl rfl cond.names
  have again := Draws.plain (.goto before.nextLabel) rfl rfl after
  have inOrder := ((labels.append test).append jump).append (body.append again)
  refine inOrder.of_perm ?_
  rw [loopCode, List.perm_iff_count]
  intro instruction
  simp only [List.count_append, List.count_cons, List.count_nil]
  omega

mutual

theorem draws_lowerStmt (names : NameSupply) : ∀ stmt : Stmt,
    Draws names (lowerStmt table scope names stmt).code (lowerStmt table scope names stmt).names
  | .declare declaration => draws_lowerDeclaration table scope names declaration
  | .assign assignment => draws_lowerStore table scope names assignment.target assignment.value
  | .branch cond thenBlock none =>
      draws_branchCode (draws_lowerExpr table scope names cond) (draws_lowerStmts _ thenBlock)
        (.nil _)
  | .branch cond thenBlock (some elseBlock) =>
      draws_branchCode (draws_lowerExpr table scope names cond) (draws_lowerStmts _ thenBlock)
        (draws_lowerStmts _ elseBlock)
  | .whileLoop cond body =>
      draws_loopCode (draws_lowerExpr table scope _ cond) (draws_lowerStmts _ body)
  | .forLoop init cond update body =>
      (draws_lowerInit table scope names init).append
        (draws_loopCode (draws_lowerExpr table scope _ cond)
          ((draws_lowerStmts _ body).append
            (draws_lowerStore table scope _ update.target update.value)))
  | .ret value => draws_lowerReturn table scope names value
  | .call callee args => draws_lowerExpr table scope names (.call callee args)
  | .block stmts => draws_lowerStmts names stmts

theorem draws_lowerStmts (names : NameSupply) : ∀ stmts : List Stmt,
    Draws names (lowerStmts table scope names stmts).code
      (lowerStmts table scope names stmts).names
  | [] => .nil names
  | stmt :: rest => (draws_lowerStmt names stmt).append (draws_lowerStmts _ rest)

end

theorem draws_lowerFunction (names : NameSupply) (function : FunctionDecl) :
    Draws names (lowerFunction table names function).code
      (lowerFunction table names function).names :=
  (Draws.plain (.label (.function _)) rfl rfl names).append (draws_lowerStmts table _ names _)

theorem draws_lowerFunctions (names : NameSupply) (functions : List FunctionDecl) :
    Draws names (lowerFunctions table names functions).code
      (lowerFunctions table names functions).names := by
  induction functions generalizing names with
  | nil => exact .nil names
  | cons function rest inductionHypothesis =>
      exact (draws_lowerFunction table names function).append (inductionHypothesis _)

end Lowering

end MiddleEnd
