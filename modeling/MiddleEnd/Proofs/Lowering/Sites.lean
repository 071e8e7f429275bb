import MiddleEnd.Proofs.Code.Flow
import MiddleEnd.Proofs.Lowering.Wiring

/-!
Contract: which statement an instruction was emitted for.

A site is a statement together with the circumstances under which it is lowered: its scope, the
names that are left, and the index at which its code starts. The statements directly inside it have
sites of their own, whose code lies inside its code. A statement emits the instructions of its code
that belong to none of these (`Site.Emits`). Only branches and loops emit jumps, and they jump to
labels of their own code, so every jump of a program stays within the code of the statement that
emitted it (`Site.HeldBy.exists_target`).

Owns: the sites of a program and of pieces before it, where their code stands, and their jumps.
Does not own: that statements jump to labels of their own (`MiddleEnd.Proofs.Lowering.Wiring`).
-/

namespace MiddleEnd

/-! ### Where pieces of code stand -/

namespace Code.Holds

variable {whole front back piece : Code} {start stop index : Nat}

theorem left (held : whole.Holds start (front ++ back) stop) :
    whole.Holds start front (start + front.length) := by
  obtain ⟨middle, heldFront, _⟩ := held.append
  rw [← heldFront.stop_eq]
  exact heldFront

theorem right (held : whole.Holds start (front ++ back) stop) :
    whole.Holds (start + front.length) back stop := by
  obtain ⟨middle, heldFront, heldBack⟩ := held.append
  rw [← heldFront.stop_eq]
  exact heldBack

theorem self (code : Code) : code.Holds 0 code code.length :=
  ⟨⟨[], [], by simp, rfl⟩, (Nat.zero_add _).symm⟩

theorem getElem? (held : whole.Holds start piece stop) {offset : Nat}
    (inside : offset < piece.length) : whole[start + offset]? = piece[offset]? := by
  obtain ⟨before, after, rfl, rfl⟩ := held.split
  rw [List.getElem?_append_right (Nat.le_add_right _ _), Nat.add_sub_cancel_left,
    List.getElem?_append_left inside]

/-- An instruction that stands within the piece is one of its instructions. -/
theorem mem_of_getElem? (held : whole.Holds start piece stop) {instruction : Instruction}
    (above : start ≤ index) (below : index < start + piece.length)
    (fetched : whole[index]? = some instruction) : instruction ∈ piece := by
  obtain ⟨offset, rfl⟩ := Nat.exists_eq_add_of_le above
  rw [held.getElem? (by omega)] at fetched
  exact List.mem_of_getElem? fetched

/-- An instruction of the piece stands somewhere within it. -/
theorem exists_getElem? (held : whole.Holds start piece stop) {instruction : Instruction}
    (member : instruction ∈ piece) :
    ∃ index, (start ≤ index ∧ index < start + piece.length) ∧
      whole[index]? = some instruction := by
  obtain ⟨offset, inside, isInstruction⟩ := List.getElem_of_mem member
  refine ⟨start + offset, ⟨by omega, by omega⟩, ?_⟩
  rw [held.getElem? inside, List.getElem?_eq_getElem inside, isInstruction]

end Code.Holds

/-- Whether the statement is a branch or a loop. -/
def Stmt.isControl : Stmt → Bool
  | branch _ _ _ => true
  | whileLoop _ _ => true
  | forLoop _ _ _ _ => true
  | declare _ => false
  | assign _ => false
  | ret _ => false
  | call _ _ => false
  | block _ => false

namespace Lowering

/-! ### Sites -/

/-- A statement that is lowered: the scope that it stands in, the names that are left when it is its
turn, and the index at which its code starts. -/
structure Site where
  scope : String
  names : NameSupply
  start : Nat
  stmt : Stmt

namespace Site

variable (table : Table)

def fragment (site : Site) : Fragment := lowerStmt table site.scope site.names site.stmt

/-- The index after the code of the statement. -/
def stop (site : Site) : Nat := site.start + (site.fragment table).code.length

/-- Statements that are lowered in a row. -/
def row (scope : String) (names : NameSupply) (start : Nat) : List Stmt → List Site
  | [] => []
  | stmt :: rest =>
      let site : Site := ⟨scope, names, start, stmt⟩
      site :: row scope (site.fragment table).names (site.stop table) rest

/-- The statements directly inside a statement. -/
def inner (site : Site) : List Site :=
  match site.stmt with
  | .branch cond thenBlock none =>
      let test := lowerExpr table site.scope site.names cond
      row table site.scope test.names.takeLabel.takeLabel (site.start + (test.code.length + 1))
        thenBlock
  | .branch cond thenBlock (some elseBlock) =>
      let test := lowerExpr table site.scope site.names cond
      let first := lowerStmts table site.scope test.names.takeLabel.takeLabel thenBlock
      row table site.scope test.names.takeLabel.takeLabel (site.start + (test.code.length + 1))
          thenBlock ++
        row table site.scope first.names
          (site.start + (test.code.length + 1 + first.code.length + 2)) elseBlock
  | .whileLoop cond body =>
      let test := lowerExpr table site.scope site.names.takeLabel.takeLabel cond
      row table site.scope test.names (site.start + (1 + test.code.length + 1)) body
  | .forLoop init cond _ body =>
      let before := lowerInit table site.scope site.names init
      let test := lowerExpr table site.scope before.names.takeLabel.takeLabel cond
      row table site.scope test.names
        (site.start + before.code.length + (1 + test.code.length + 1)) body
  | .block stmts => row table site.scope site.names site.start stmts
  | _ => []

/-- A statement lies within another one, or is the same. -/
def Within : Site → Site → Prop :=
  Relation.ReflTransGen fun outer site => site ∈ outer.inner table

/-- The code of a statement stands at an index. -/
def Covers (site : Site) (index : Nat) : Prop :=
  site.start ≤ index ∧ index < site.stop table

/-- What stands at an index has been emitted for a statement, and not for a statement inside it. -/
def Emits (site : Site) (index : Nat) : Prop :=
  site.Covers table index ∧ ∀ inside ∈ site.inner table, ¬inside.Covers table index

/-- Code has the code of a statement where the statement says. -/
def HeldBy (whole : Code) (site : Site) : Prop :=
  whole.Holds site.start (site.fragment table).code (site.stop table)

variable {table} {scope : String} {names : NameSupply} {start stop index : Nat}
  {stmts : List Stmt} {whole : Code} {site : Site}

/-! ### Rows -/

theorem stmt_mem_of_mem_row (member : site ∈ row table scope names start stmts) :
    site.stmt ∈ stmts := by
  induction stmts generalizing names start with
  | nil => cases member
  | cons stmt rest inductionHypothesis =>
      rcases List.mem_cons.1 member with rfl | later
      · exact List.mem_cons_self
      · exact List.mem_cons_of_mem _ (inductionHypothesis later)

theorem heldBy_of_mem_row
    (held : whole.Holds start (lowerStmts table scope names stmts).code stop)
    (member : site ∈ row table scope names start stmts) : site.HeldBy table whole := by
  induction stmts generalizing names start with
  | nil => cases member
  | cons stmt rest inductionHypothesis =>
      rcases List.mem_cons.1 member with rfl | later
      · exact held.left
      · exact inductionHypothesis held.right later

theorem exists_covers_row (above : start ≤ index)
    (below : index < start + (lowerStmts table scope names stmts).code.length) :
    ∃ site ∈ row table scope names start stmts, site.Covers table index := by
  induction stmts generalizing names start with
  | nil => exact absurd below (Nat.not_lt_of_le above)
  | cons stmt rest inductionHypothesis =>
      let first : Site := ⟨scope, names, start, stmt⟩
      by_cases here : index < first.stop table
      · exact ⟨first, List.mem_cons_self, above, here⟩
      · rw [lowerStmts, List.length_append, ← Nat.add_assoc] at below
        obtain ⟨site, member, covers⟩ := inductionHypothesis (Nat.le_of_not_lt here) below
        exact ⟨site, List.mem_cons_of_mem _ member, covers⟩

/-! ### Inside a statement -/

section Parts

variable {cond : Value} {firstLabel secondLabel : Label} {thenCode elseCode bodyCode : Code}

theorem holds_thenCode
    (held : whole.Holds start (branchCode cond firstLabel secondLabel thenCode elseCode) stop) :
    ∃ thenStop, whole.Holds (start + (cond.code.length + 1)) thenCode thenStop := by
  have heldThen := held.left.left.left.right
  rw [List.length_append, List.length_singleton] at heldThen
  exact ⟨_, heldThen⟩

theorem holds_elseCode
    (held : whole.Holds start (branchCode cond firstLabel secondLabel thenCode elseCode) stop) :
    ∃ elseStop, whole.Holds (start + (cond.code.length + 1 + thenCode.length + 2)) elseCode
      elseStop := by
  have heldElse := held.left.right
  simp only [List.length_append, List.length_cons, List.length_nil, Nat.zero_add] at heldElse
  exact ⟨_, heldElse⟩

theorem holds_bodyCode
    (held : whole.Holds start (loopCode cond firstLabel secondLabel bodyCode) stop) :
    ∃ bodyStop, whole.Holds (start + (1 + cond.code.length + 1)) bodyCode bodyStop := by
  have heldBody := held.left.right
  simp only [List.length_append, List.length_singleton] at heldBody
  exact ⟨_, heldBody⟩

end Parts

theorem heldBy_of_mem_inner (held : site.HeldBy table whole) {inside : Site}
    (member : inside ∈ site.inner table) : inside.HeldBy table whole := by
  obtain ⟨scope, names, start, stmt⟩ := site
  cases stmt with
  | declare _ => cases member
  | assign _ => cases member
  | branch cond thenBlock elseBlock =>
      cases elseBlock with
      | none =>
          obtain ⟨_, heldThen⟩ := holds_thenCode held
          exact heldBy_of_mem_row heldThen member
      | some elseBlock =>
          rcases List.mem_append.1 member with inThen | inElse
          · obtain ⟨_, heldThen⟩ := holds_thenCode held
            exact heldBy_of_mem_row heldThen inThen
          · obtain ⟨_, heldElse⟩ := holds_elseCode held
            exact heldBy_of_mem_row heldElse inElse
  | whileLoop cond body =>
      obtain ⟨_, heldBody⟩ := holds_bodyCode held
      exact heldBy_of_mem_row heldBody member
  | forLoop init cond update body =>
      obtain ⟨_, heldBody⟩ := holds_bodyCode (Code.Holds.right held)
      exact heldBy_of_mem_row heldBody.left member
  | ret _ => cases member
  | call _ _ => cases member
  | block stmts => exact heldBy_of_mem_row held member

theorem heldBy_of_within {inside : Site} (within : site.Within table inside)
    (held : site.HeldBy table whole) : inside.HeldBy table whole := by
  induction within with
  | refl => exact held
  | tail _ member inductionHypothesis => exact heldBy_of_mem_inner inductionHypothesis member

theorem sizeOf_inner_lt {inside : Site} (member : inside ∈ site.inner table) :
    sizeOf inside.stmt < sizeOf site.stmt := by
  obtain ⟨scope, names, start, stmt⟩ := site
  have smaller {names : NameSupply} {start : Nat} {stmts : List Stmt}
      (inRow : inside ∈ row table scope names start stmts) : sizeOf inside.stmt < sizeOf stmts :=
    List.sizeOf_lt_of_mem (stmt_mem_of_mem_row inRow)
  cases stmt with
  | declare _ => cases member
  | assign _ => cases member
  | branch cond thenBlock elseBlock =>
      cases elseBlock with
      | none =>
          have below := smaller member
          simp only [Stmt.branch.sizeOf_spec]
          omega
      | some elseBlock =>
          simp only [Stmt.branch.sizeOf_spec, Option.some.sizeOf_spec]
          rcases List.mem_append.1 member with inThen | inElse
          · have below := smaller inThen
            omega
          · have below := smaller inElse
            omega
  | whileLoop cond body =>
      have below := smaller member
      simp only [Stmt.whileLoop.sizeOf_spec]
      omega
  | forLoop init cond update body =>
      have below := smaller member
      simp only [Stmt.forLoop.sizeOf_spec]
      omega
  | ret _ => cases member
  | call _ _ => cases member
  | block stmts =>
      have below := smaller member
      simp only [Stmt.block.sizeOf_spec]
      omega

/-- Among the statements whose code stands at an index there is one that has emitted it. -/
theorem exists_emits (covers : site.Covers table index) :
    ∃ emitter, site.Within table emitter ∧ emitter.Emits table index := by
  -- The descent into statements that still cover the index ends, since they get smaller.
  induction size : sizeOf site.stmt using Nat.strongRecOn generalizing site with
  | ind size deeper =>
      by_cases deep : ∃ inside ∈ site.inner table, inside.Covers table index
      · obtain ⟨inside, member, coversInside⟩ := deep
        obtain ⟨emitter, within, emits⟩ :=
          deeper (sizeOf inside.stmt) (size ▸ sizeOf_inner_lt member) coversInside rfl
        exact ⟨emitter, .head member within, emits⟩
      · exact ⟨site, .refl, covers, fun inside member coversInside =>
          deep ⟨inside, member, coversInside⟩⟩

/-! ### Jumps -/

variable {instruction : Instruction} {target : Label}

/-- A jump that stands in the code of a statement goes to a label in the code of that statement. -/
theorem HeldBy.exists_target (held : site.HeldBy table whole) (covers : site.Covers table index)
    (fetched : whole[index]? = some instruction)
    (jumps : instruction.jumpTarget? = some target) :
    ∃ block goal, target = .block block ∧ site.Covers table goal ∧
      whole[goal]? = some (.label target) := by
  have contained := (sound_lowerStmt table site.scope site.names site.stmt).contained
  have member := Code.Holds.mem_of_getElem? held covers.1 covers.2 fetched
  obtain ⟨block, isBlock, defined⟩ := contained.jumps instruction member target jumps
  obtain ⟨goal, coversGoal, atGoal⟩ := Code.Holds.exists_getElem? held defined
  exact ⟨block, goal, isBlock, coversGoal, atGoal⟩

end Site

section NoJumps

variable {table : Table} {scope : String} {names : NameSupply} {instruction : Instruction}

theorem jumpTarget?_of_mem_lowerExpr {expr : Expr}
    (member : instruction ∈ (lowerExpr table scope names expr).code) :
    instruction.jumpTarget? = none := by
  have evaluation := (feeds_lowerExpr table scope names expr).uniform instruction member
  cases instruction with
  | assign _ _ => rfl
  | binary _ _ _ _ => rfl
  | label _ => rfl
  | goto _ => cases evaluation
  | ifFalseGoto _ _ => cases evaluation

theorem jumpTarget?_of_mem_evalThen {dest : Dest} {value : Operand} {expr : Expr}
    (member : instruction ∈ (lowerExpr table scope names expr).code ++ [.assign dest value]) :
    instruction.jumpTarget? = none := by
  rcases List.mem_append.1 member with inExpr | isLast
  · exact jumpTarget?_of_mem_lowerExpr inExpr
  · rw [List.mem_singleton.1 isLast]
    rfl

theorem jumpTarget?_of_mem_lowerDeclaration {declaration : Declaration}
    (member : instruction ∈ (lowerDeclaration table scope names declaration).code) :
    instruction.jumpTarget? = none := by
  unfold lowerDeclaration at member
  cases given : declaration.init with
  | none =>
      rw [given] at member
      cases member
  | some init =>
      rw [given] at member
      exact jumpTarget?_of_mem_evalThen member

theorem jumpTarget?_of_mem_lowerReturn {value : Option Expr}
    (member : instruction ∈ (lowerReturn table scope names value).code) :
    instruction.jumpTarget? = none := by
  cases value with
  | none =>
      rw [List.mem_singleton.1 member]
      rfl
  | some expr => exact jumpTarget?_of_mem_evalThen member

end NoJumps

namespace Site

variable {table : Table} {site : Site} {whole : Code} {index : Nat} {instruction : Instruction}
  {target : Label}

/-- Only branches and loops emit jumps. A block emits nothing at all. -/
theorem Emits.isControl (emits : site.Emits table index) (held : site.HeldBy table whole)
    (fetched : whole[index]? = some instruction)
    (jumps : instruction.jumpTarget? = some target) : site.stmt.isControl = true := by
  have member := Code.Holds.mem_of_getElem? held emits.1.1 emits.1.2 fetched
  have notSilent : instruction.jumpTarget? ≠ none := by simp [jumps]
  obtain ⟨scope, names, start, stmt⟩ := site
  cases stmt with
  | declare _ => exact absurd (jumpTarget?_of_mem_lowerDeclaration member) notSilent
  | assign _ => exact absurd (jumpTarget?_of_mem_evalThen member) notSilent
  | branch _ _ _ => rfl
  | whileLoop _ _ => rfl
  | forLoop _ _ _ _ => rfl
  | ret _ => exact absurd (jumpTarget?_of_mem_lowerReturn member) notSilent
  | call _ _ => exact absurd (jumpTarget?_of_mem_lowerExpr member) notSilent
  | block stmts =>
      obtain ⟨inside, inRow, covers⟩ := exists_covers_row emits.1.1 emits.1.2
      exact absurd covers (emits.2 inside inRow)

end Site

/-! ### The sites of pieces and functions -/

section Tops

variable (table : Table)

/-- The statements among pieces that are lowered in a row. -/
def pieceSites (names : NameSupply) (start : Nat) : List Piece → List Site
  | [] => []
  | .stmt stmt :: rest =>
      let site : Site := ⟨globalScope, names, start, stmt⟩
      site :: pieceSites (site.fragment table).names (site.stop table) rest
  | .expr expr :: rest =>
      let value := lowerExpr table globalScope names expr
      pieceSites value.names (start + value.code.length) rest

/-- The statements of the bodies of functions that are lowered in a row. -/
def functionSites (names : NameSupply) (start : Nat) : List FunctionDecl → List Site
  | [] => []
  | function :: rest =>
      let body := lowerStmts table function.name.name names function.body
      Site.row table function.name.name names (start + 1) function.body ++
        functionSites body.names (start + (body.code.length + 1)) rest

variable {table} {names : NameSupply} {start stop index : Nat} {whole : Code} {site : Site}
  {instruction : Instruction} {target : Label}

theorem heldBy_of_mem_pieceSites {pieces : List Piece}
    (held : whole.Holds start (lowerPieces table names pieces).1.code stop)
    (member : site ∈ pieceSites table names start pieces) : site.HeldBy table whole := by
  induction pieces generalizing names start with
  | nil => cases member
  | cons piece rest inductionHypothesis =>
      cases piece with
      | stmt stmt =>
          rcases List.mem_cons.1 member with rfl | later
          · exact held.left
          · exact inductionHypothesis held.right later
      | expr expr => exact inductionHypothesis held.right member

/-- The body of the first function stands after its entry label. -/
theorem holds_entry_body {function : FunctionDecl} {rest : List FunctionDecl}
    (held : whole.Holds start (lowerFunctions table names (function :: rest)).code stop) :
    whole[start]? = some (.label (.function function.name.name)) ∧
      ∃ bodyStop, whole.Holds (start + 1)
        (lowerStmts table function.name.name names function.body).code bodyStop := by
  let body := lowerStmts table function.name.name names function.body
  have heldFirst : whole.Holds start ([.label (.function function.name.name)] ++ body.code) _ :=
    held.left
  exact ⟨heldFirst.left.fetch.1, _, heldFirst.right⟩

theorem heldBy_of_mem_functionSites {functions : List FunctionDecl}
    (held : whole.Holds start (lowerFunctions table names functions).code stop)
    (member : site ∈ functionSites table names start functions) : site.HeldBy table whole := by
  induction functions generalizing names start with
  | nil => cases member
  | cons function rest inductionHypothesis =>
      rcases List.mem_append.1 member with inBody | later
      · obtain ⟨_, _, heldBody⟩ := holds_entry_body held
        exact Site.heldBy_of_mem_row heldBody inBody
      · exact inductionHypothesis held.right later

/-- A jump among the code of pieces stands in the code of a statement. -/
theorem exists_covers_pieceSites {pieces : List Piece}
    (held : whole.Holds start (lowerPieces table names pieces).1.code stop)
    (above : start ≤ index) (below : index < stop) (fetched : whole[index]? = some instruction)
    (jumps : instruction.jumpTarget? = some target) :
    ∃ site ∈ pieceSites table names start pieces, site.Covers table index := by
  induction pieces generalizing names start with
  | nil =>
      rw [held.stop_eq] at below
      exact absurd below (Nat.not_lt_of_le above)
  | cons piece rest inductionHypothesis =>
      by_cases here : index < start + (lowerPiece table names piece).1.code.length
      · cases piece with
        | stmt stmt => exact ⟨_, List.mem_cons_self, above, here⟩
        | expr expr =>
            have member := held.left.mem_of_getElem? above here fetched
            rw [jumpTarget?_of_mem_lowerExpr member] at jumps
            cases jumps
      · obtain ⟨site, member, covers⟩ := inductionHypothesis held.right (Nat.le_of_not_lt here)
        refine ⟨site, ?_, covers⟩
        cases piece with
        | stmt stmt => exact List.mem_cons_of_mem _ member
        | expr expr => exact member

/-- A jump among the code of functions stands in the code of a statement. -/
theorem exists_covers_functionSites {functions : List FunctionDecl}
    (held : whole.Holds start (lowerFunctions table names functions).code stop)
    (above : start ≤ index) (below : index < stop) (fetched : whole[index]? = some instruction)
    (jumps : instruction.jumpTarget? = some target) :
    ∃ site ∈ functionSites table names start functions, site.Covers table index := by
  induction functions generalizing names start with
  | nil =>
      rw [held.stop_eq] at below
      exact absurd below (Nat.not_lt_of_le above)
  | cons function rest inductionHypothesis =>
      let first := lowerFunction table names function
      by_cases here : index < start + first.code.length
      · have notEntry : index ≠ start := by
          rintro rfl
          rw [(holds_entry_body held).1, Option.some.injEq] at fetched
          rw [← fetched] at jumps
          cases jumps
        have inBody : index < start + 1 +
            (lowerStmts table function.name.name names function.body).code.length := by
          have length : first.code.length = _ + 1 := List.length_cons
          omega
        obtain ⟨site, member, covers⟩ := Site.exists_covers_row (by omega) inBody
        exact ⟨site, List.mem_append_left _ member, covers⟩
      · obtain ⟨site, member, covers⟩ := inductionHypothesis held.right (Nat.le_of_not_lt here)
        exact ⟨site, List.mem_append_right _ member, covers⟩

end Tops

end Lowering

namespace Program

open Lowering

variable (program : Program) (table : Table) (pieces : List Piece)

/-- The statements that are lowered in a row, of pieces and then of a program. -/
def sites : List Site :=
  let before := (lowerPieces table .start pieces).1
  pieceSites table .start 0 pieces ++
    functionSites table before.names before.code.length program.functions

/-- A statement of the pieces or of the program is lowered, wherever it is nested. -/
def Lowers (site : Site) : Prop := ∃ top ∈ program.sites table pieces, top.Within table site

variable {program table pieces}

theorem Lowers.heldBy {site : Site} (lowers : program.Lowers table pieces site) :
    site.HeldBy table (program.lowerAfter table pieces).1 := by
  obtain ⟨top, isTop, within⟩ := lowers
  have held := Code.Holds.self (program.lowerAfter table pieces).1
  apply Site.heldBy_of_within within
  rcases List.mem_append.1 isTop with inPieces | inFunctions
  · exact heldBy_of_mem_pieceSites held.left inPieces
  · have heldFunctions := held.right
    rw [Nat.zero_add] at heldFunctions
    exact heldBy_of_mem_functionSites heldFunctions inFunctions

/-- Every jump has been emitted for a statement. -/
theorem exists_emitter {index : Nat} {instruction : Instruction} {target : Label}
    (fetched : (program.lowerAfter table pieces).1[index]? = some instruction)
    (jumps : instruction.jumpTarget? = some target) :
    ∃ site, program.Lowers table pieces site ∧ site.Emits table index := by
  let before := (lowerPieces table .start pieces).1
  have held := Code.Holds.self (program.lowerAfter table pieces).1
  obtain ⟨inside, _⟩ := List.getElem?_eq_some_iff.1 fetched
  have covered : ∃ top ∈ program.sites table pieces, top.Covers table index := by
    by_cases early : index < before.code.length
    · obtain ⟨top, isTop, covers⟩ := exists_covers_pieceSites held.left (Nat.zero_le index)
        ((Nat.zero_add _).symm ▸ early) fetched jumps
      exact ⟨top, List.mem_append_left _ isTop, covers⟩
    · have heldFunctions := held.right
      rw [Nat.zero_add] at heldFunctions
      obtain ⟨top, isTop, covers⟩ := exists_covers_functionSites heldFunctions
        (Nat.le_of_not_lt early) inside fetched jumps
      exact ⟨top, List.mem_append_right _ isTop, covers⟩
  obtain ⟨top, isTop, covers⟩ := covered
  obtain ⟨emitter, within, emits⟩ := Site.exists_emits covers
  exact ⟨emitter, ⟨top, isTop, within⟩, emits⟩

end Program

end MiddleEnd
