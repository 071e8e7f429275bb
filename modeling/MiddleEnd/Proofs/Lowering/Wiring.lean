import MiddleEnd.Proofs.Lowering.Names

/-!
Contract: lowered code is closed and wired.

A piece of lowered code reads only temporaries that it has taken from the supply, each once, and
reads them after it has written them with nothing but evaluation in between (`Wired`). The code of
an expression leaves operands that are still to be read (`Feeds`), and the instruction after it
reads them.
The code of a statement jumps only to block labels that it defines itself and defines no entry of a
function (`SelfContained`), so a program whose functions have different names lowers to well-formed
code (`wellFormed_lowerFunctions`).

Owns: the reads, the jumps and the labels of every piece of lowered code.
Does not own: the writes and the count of block labels (`MiddleEnd.Proofs.Lowering.Names`).
-/

namespace MiddleEnd

/-- Whether the instruction is part of evaluating an expression: an operation, or the passing of an
argument. -/
def Instruction.isEvaluation : Instruction → Bool
  | binary _ _ _ _ => true
  | assign .param _ => true
  | assign .ret _ => false
  | assign (.slot _) _ => false
  | label _ => false
  | goto _ => false
  | ifFalseGoto _ _ => false

theorem Instruction.isStraight_of_isEvaluation {instruction : Instruction}
    (evaluation : instruction.isEvaluation = true) : instruction.isStraight = true := by
  cases instruction with
  | assign dest _ =>
      cases dest with
      | slot _ => rfl
      | ret => cases evaluation
      | param => rfl
  | binary _ _ _ _ => rfl
  | label _ => cases evaluation
  | goto _ => cases evaluation
  | ifFalseGoto _ _ => cases evaluation

namespace Code

/-! ### Reads -/

/-- Code that takes the temporaries of a span, reads each of them at most once, and sees what it
reads. -/
structure Wired (first : Nat) (code : Code) (last : Nat) : Prop where
  writes : Numbered first code last
  reads : last ≤ 2 ^ 32 → ∀ temp, code.readCount temp ≤ span first last temp.index.toNat
  fed : last ≤ 2 ^ 32 → code.Fed Instruction.isEvaluation

/-- Code that evaluates some operands, which are still to be read once each. -/
structure Feeds (first : Nat) (code : Code) (pending : List Operand) (last : Nat) : Prop where
  writes : Numbered first code last
  reads : last ≤ 2 ^ 32 → ∀ temp,
    code.readCount temp + (Operand.temps pending).count temp ≤ span first last temp.index.toNat
  fed : last ≤ 2 ^ 32 → code.Fed Instruction.isEvaluation
  uniform : ∀ instruction ∈ code, instruction.isEvaluation = true

variable {first middle last : Nat} {code front back : Code} {pending others : List Operand}

/-- Pieces that take their temporaries one after the other do not touch each other's. -/
theorem Fed.join (few : last ≤ 2 ^ 32) (writesFront : Numbered first front middle)
    (writesBack : Numbered middle back last)
    (readsFront : ∀ temp, front.readCount temp ≤ span first middle temp.index.toNat)
    (readsBack : ∀ temp, back.readCount temp ≤ span middle last temp.index.toNat)
    {kind : Instruction → Bool} (fedFront : front.Fed kind) (fedBack : back.Fed kind) :
    Fed (front ++ back) kind := by
  apply fedFront.append fedBack
  · intro temp read
    have inside := readsFront temp
    have outside := writesBack.writes few temp
    simp only [span] at inside outside
    split at inside <;> split at outside <;> omega
  · intro temp read
    have inside := readsBack temp
    have outside := writesFront.writes (Nat.le_trans writesBack.le few) temp
    simp only [span] at inside outside
    split at inside <;> split at outside <;> omega

namespace Wired

theorem writeCount_le_one (wired : Wired first code last) (few : last ≤ 2 ^ 32) (temp : Temp) :
    code.writeCount temp ≤ 1 :=
  Nat.le_trans (wired.writes.writes few temp) (span_le_one _ _ _)

theorem readCount_le_one (wired : Wired first code last) (few : last ≤ 2 ^ 32) (temp : Temp) :
    code.readCount temp ≤ 1 :=
  Nat.le_trans (wired.reads few temp) (span_le_one _ _ _)

theorem nil (bound : Nat) : Wired bound [] bound where
  writes := ⟨Nat.le_refl _, fun _ _ => Nat.zero_le _⟩
  reads := fun _ _ => Nat.zero_le _
  fed := fun _ _ _ _ here => nomatch here

theorem silent (instruction : Instruction) (noWrite : instruction.temp? = none)
    (noRead : instruction.operands = []) (bound : Nat) : Wired bound [instruction] bound where
  writes := .silent instruction noWrite bound
  reads := by
    intro _ temp
    simp [readCount, Instruction.readTemps, noRead, Operand.temps]
  fed := by
    intro _ index reader temp here reads
    rw [List.mem_singleton.1 (List.mem_of_getElem? here), Instruction.readTemps, noRead] at reads
    cases reads

theorem append (left : Wired first front middle) (right : Wired middle back last) :
    Wired first (front ++ back) last where
  writes := left.writes.append right.writes
  reads := by
    intro few temp
    have readsFront := left.reads (Nat.le_trans right.writes.le few) temp
    have readsBack := right.reads few temp
    rw [readCount_append, ← span_add left.writes.le right.writes.le]
    omega
  fed := by
    intro few
    have fewLeft := Nat.le_trans right.writes.le few
    exact Fed.join few left.writes right.writes (left.reads fewLeft) (right.reads few)
      (left.fed fewLeft) (right.fed few)

end Wired

namespace Feeds

theorem readCount_le (feeds : Feeds first code pending last) (few : last ≤ 2 ^ 32) (temp : Temp) :
    code.readCount temp ≤ span first last temp.index.toNat :=
  Nat.le_trans (Nat.le_add_right _ _) (feeds.reads few temp)

theorem wired (feeds : Feeds first code pending last) : Wired first code last :=
  ⟨feeds.writes, feeds.readCount_le, feeds.fed⟩

theorem nothing (pending : List Operand) (noTemps : Operand.temps pending = []) (bound : Nat) :
    Feeds bound [] pending bound where
  writes := (Wired.nil bound).writes
  reads := by
    intro _ temp
    simp [noTemps, readCount]
  fed := (Wired.nil bound).fed
  uniform := fun _ member => nomatch member

theorem append (left : Feeds first front pending middle) (right : Feeds middle back others last) :
    Feeds first (front ++ back) (pending ++ others) last where
  writes := left.writes.append right.writes
  reads := by
    intro few temp
    have readsFront := left.reads (Nat.le_trans right.writes.le few) temp
    have readsBack := right.reads few temp
    rw [readCount_append, Operand.temps, List.flatMap_append, List.count_append,
      ← span_add left.writes.le right.writes.le]
    unfold Operand.temps at readsFront readsBack
    omega
  fed := (left.wired.append right.wired).fed
  uniform := by
    intro instruction member
    rcases List.mem_append.1 member with inFront | inBack
    · exact left.uniform instruction inFront
    · exact right.uniform instruction inBack

/-- The instruction after the code reads what is pending. -/
theorem consume (feeds : Feeds first code pending last) {instruction : Instruction}
    (reads : instruction.operands = pending) (noWrite : instruction.temp? = none) :
    Wired first (code ++ [instruction]) last where
  writes := feeds.writes.append (.silent instruction noWrite last)
  reads := by
    intro few temp
    rw [readCount_append]
    simp only [readCount, List.flatMap_singleton, Instruction.readTemps, reads]
    exact feeds.reads few temp
  fed := by
    intro few
    apply (feeds.fed few).concat feeds.uniform
    intro temp writes
    rw [noWrite] at writes
    cases writes

theorem pass {operand : Operand} (feeds : Feeds first code [operand] last) :
    Feeds first (code ++ [.assign .param operand]) [] last where
  writes := (feeds.consume rfl rfl).writes
  reads := (feeds.consume rfl rfl).reads
  fed := (feeds.consume rfl rfl).fed
  uniform := by
    intro instruction member
    rcases List.mem_append.1 member with before | isLast
    · exact feeds.uniform instruction before
    · rw [List.mem_singleton.1 isLast]
      rfl

theorem count_nextTemp {names : NameSupply} (few : names.temps + 1 ≤ 2 ^ 32) (temp : Temp) :
    (Operand.temps [.slot (.temp names.nextTemp)]).count temp =
      span names.temps (names.temps + 1) temp.index.toNat := by
  have isNext := NameSupply.nextTemp_eq_iff (Nat.lt_of_succ_le few) temp
  rw [span_succ]
  simp [Operand.temps, Operand.temp?, List.count_singleton, isNext]

theorem span_takeTemp {names : NameSupply} (feeds : Feeds first code pending names.temps)
    (number : Nat) : span first names.takeTemp.temps number =
      span first names.temps number + span names.temps (names.temps + 1) number :=
  (span_add feeds.writes.le (Nat.le_add_right names.temps 1) number).symm

/-- A temporary that is taken after the code is not among those read so far. -/
theorem count_eq_zero {names : NameSupply} (feeds : Feeds first code pending names.temps)
    (few : names.temps + 1 ≤ 2 ^ 32) :
    code.readCount names.nextTemp = 0 ∧ names.nextTemp ∉ Operand.temps pending := by
  have number := (NameSupply.nextTemp_eq_iff (Nat.lt_of_succ_le few) names.nextTemp).1 rfl
  have outside := feeds.reads (by omega) names.nextTemp
  rw [span, if_neg (by omega)] at outside
  exact ⟨by omega, List.count_eq_zero.1 (by omega)⟩

theorem binary {names : NameSupply} {left right : Operand}
    (feeds : Feeds first code [left, right] names.temps) (op : Operator) :
    Feeds first (code ++ [.binary names.nextTemp op left right])
      [.slot (.temp names.nextTemp)] names.takeTemp.temps where
  writes := feeds.writes.append (Draws.binary names op left right).temps
  reads := by
    intro few temp
    have readsBefore := feeds.reads (Nat.le_of_succ_le few) temp
    rw [readCount_append, count_nextTemp few, feeds.span_takeTemp]
    simp only [readCount, List.flatMap_singleton, Instruction.readTemps, Instruction.operands]
    simp only [readCount] at readsBefore
    omega
  fed := by
    intro few
    apply (feeds.fed (Nat.le_of_succ_le few)).concat feeds.uniform
    intro temp writes
    cases writes
    exact feeds.count_eq_zero few
  uniform := by
    intro instruction member
    rcases List.mem_append.1 member with before | isLast
    · exact feeds.uniform instruction before
    · rw [List.mem_singleton.1 isLast]
      rfl

/-- The result of a call is a temporary that nothing has written. -/
theorem call {names : NameSupply} (feeds : Feeds first code [] names.temps) :
    Feeds first code [.slot (.temp names.nextTemp)] names.takeTemp.temps where
  writes := by
    have idle := feeds.writes.append (Draws.idle names).temps
    rwa [List.append_nil] at idle
  reads := by
    intro few temp
    have readsBefore := feeds.readCount_le (Nat.le_of_succ_le few) temp
    rw [count_nextTemp few, feeds.span_takeTemp]
    omega
  fed := fun few => feeds.fed (Nat.le_of_succ_le few)
  uniform := feeds.uniform

end Feeds

/-! ### Jumps and labels -/

/-- Code whose jumps go to block labels of some whole code, and that is no entry of a function. -/
structure JumpsWithin (whole code : Code) : Prop where
  jumps : ∀ instruction ∈ code, ∀ target, instruction.jumpTarget? = some target →
    ∃ block, target = .block block ∧ .label target ∈ whole
  entries : ∀ name, .label (.function name) ∉ code

/-- Code that defines all labels that it jumps to. -/
abbrev SelfContained (code : Code) : Prop := JumpsWithin code code

namespace JumpsWithin

variable {whole : Code}

theorem nil : JumpsWithin whole [] where
  jumps := fun _ member => nomatch member
  entries := fun _ member => nomatch member

theorem append (left : JumpsWithin whole front) (right : JumpsWithin whole back) :
    JumpsWithin whole (front ++ back) where
  jumps := by
    intro instruction member
    rcases List.mem_append.1 member with inFront | inBack
    · exact left.jumps instruction inFront
    · exact right.jumps instruction inBack
  entries := by
    intro name member
    rcases List.mem_append.1 member with inFront | inBack
    · exact left.entries name inFront
    · exact right.entries name inBack

theorem mono {part : Code} (within : JumpsWithin part code)
    (inside : ∀ instruction ∈ part, instruction ∈ whole) : JumpsWithin whole code where
  jumps := by
    intro instruction member target jumps
    obtain ⟨block, isBlock, defined⟩ := within.jumps instruction member target jumps
    exact ⟨block, isBlock, inside _ defined⟩
  entries := within.entries

theorem plain {instruction : Instruction} (noJump : instruction.jumpTarget? = none)
    (noEntry : ∀ name, instruction ≠ .label (.function name)) :
    JumpsWithin whole [instruction] where
  jumps := by
    intro other member target jumps
    rw [List.mem_singleton.1 member, noJump] at jumps
    cases jumps
  entries := fun name member => noEntry name (List.mem_singleton.1 member).symm

theorem jump {instruction : Instruction} {block : UInt32}
    (jumps : instruction.jumpTarget? = some (.block block))
    (defined : .label (.block block) ∈ whole) : JumpsWithin whole [instruction] where
  jumps := by
    intro other member target jumpsTo
    rw [List.mem_singleton.1 member, jumps] at jumpsTo
    cases jumpsTo
    exact ⟨block, rfl, defined⟩
  entries := by
    intro name member
    rw [← List.mem_singleton.1 member] at jumps
    cases jumps

end JumpsWithin

theorem SelfContained.append (left : SelfContained front) (right : SelfContained back) :
    SelfContained (front ++ back) :=
  (left.mono fun _ member => List.mem_append_left back member).append
    (right.mono fun _ member => List.mem_append_right front member)

/-- Evaluation neither jumps nor defines a label. -/
theorem Feeds.jumpsWithin (feeds : Feeds first code pending last) (whole : Code) :
    JumpsWithin whole code := by
  have noLabel : ∀ label, .label label ∉ code := by
    intro label member
    cases feeds.uniform _ member
  refine ⟨?_, fun name => noLabel (.function name)⟩
  intro instruction member target jumps
  have evaluation := feeds.uniform instruction member
  cases instruction with
  | assign _ _ => cases jumps
  | binary _ _ _ _ => cases jumps
  | label _ => cases evaluation
  | goto _ => cases evaluation
  | ifFalseGoto _ _ => cases evaluation

end Code

namespace Lowering

open Code (Feeds Wired JumpsWithin SelfContained)

variable (table : Table) (scope : String)

/-! ### Expressions -/

mutual

theorem feeds_lowerExpr (names : NameSupply) : ∀ expr : Expr,
    let value := lowerExpr table scope names expr
    Feeds names.temps value.code [value.operand] value.names.temps
  | .binary op left right =>
      ((feeds_lowerExpr names left).append (feeds_lowerExpr _ right)).binary op
  | .ident _ => .nothing _ rfl _
  | .int _ => .nothing _ rfl _
  | .paren inner => feeds_lowerExpr names inner
  | .call _ args => (feeds_lowerArgs names args).call

theorem feeds_lowerArgs (names : NameSupply) : ∀ args : List Expr,
    let passed := lowerArgs table scope names args
    Feeds names.temps passed.code [] passed.names.temps
  | [] => .nothing [] rfl _
  | arg :: rest => (feeds_lowerExpr names arg).pass.append (feeds_lowerArgs _ rest)

end

/-! ### Statements -/

/-- A fragment that is wired, from its first temporary on, and keeps its jumps to itself. -/
structure Sound (first : Nat) (fragment : Fragment) : Prop where
  wired : Wired first fragment.code fragment.names.temps
  contained : SelfContained fragment.code

theorem Sound.nothing (names : NameSupply) : Sound names.temps ⟨[], names⟩ := ⟨.nil _, .nil⟩

/-- An expression, and an assignment of its value. -/
theorem sound_evalThen {dest : Dest}
    (noTemp : ∀ value, (Instruction.assign dest value).temp? = none) (names : NameSupply)
    (expr : Expr) :
    let value := lowerExpr table scope names expr
    Sound names.temps ⟨value.code ++ [.assign dest value.operand], value.names⟩ := by
  have feeds := feeds_lowerExpr table scope names expr
  exact ⟨feeds.consume rfl (noTemp _), (feeds.jumpsWithin _).append (.plain rfl nofun)⟩

theorem sound_lowerStore (names : NameSupply) (target : Ident) (expr : Expr) :
    Sound names.temps (lowerStore table scope names target expr) :=
  sound_evalThen table scope (fun _ => rfl) names expr

theorem sound_lowerDeclaration (names : NameSupply) (declaration : Declaration) :
    Sound names.temps (lowerDeclaration table scope names declaration) := by
  unfold lowerDeclaration
  cases declaration.init with
  | none => exact .nothing names
  | some init => exact sound_lowerStore table scope names declaration.name init

theorem sound_lowerInit (names : NameSupply) (init : LoopInit) :
    Sound names.temps (lowerInit table scope names init) := by
  cases init with
  | declare declaration => exact sound_lowerDeclaration table scope names declaration
  | assign assignment => exact sound_lowerStore table scope names _ _

theorem sound_lowerReturn (names : NameSupply) (value : Option Expr) :
    Sound names.temps (lowerReturn table scope names value) := by
  cases value with
  | none =>
      have empty := Feeds.nothing [.empty] rfl names.temps
      exact ⟨empty.consume rfl rfl, .plain rfl nofun⟩
  | some expr => exact sound_evalThen table scope (fun _ => rfl) names expr

theorem Sound.append {bound : Nat} {first second : Fragment} (left : Sound bound first)
    (right : Sound first.names.temps second) :
    Sound bound ⟨first.code ++ second.code, second.names⟩ :=
  ⟨left.wired.append right.wired, Code.SelfContained.append left.contained right.contained⟩

section Labels

variable {bound : Nat} {between after : NameSupply} {cond : Value} {firstBlock secondBlock : UInt32}

theorem jumpsWithin_branchCode {whole thenCode elseCode : Code}
    (test : JumpsWithin whole cond.code) (first : JumpsWithin whole thenCode)
    (second : JumpsWithin whole elseCode) (elseDefined : .label (.block firstBlock) ∈ whole)
    (endDefined : .label (.block secondBlock) ∈ whole) :
    JumpsWithin whole
      (branchCode cond (.block firstBlock) (.block secondBlock) thenCode elseCode) := by
  have branch : JumpsWithin whole [.ifFalseGoto cond.operand (.block firstBlock)] :=
    .jump rfl elseDefined
  have skip : JumpsWithin whole [.goto (.block secondBlock)] := .jump rfl endDefined
  have opening : JumpsWithin whole [.label (.block firstBlock)] := .plain rfl nofun
  have closing : JumpsWithin whole [.label (.block secondBlock)] := .plain rfl nofun
  exact ((((test.append branch).append first).append (skip.append opening)).append second).append
    closing

theorem sound_branchCode {thenCode elseCode : Code}
    (test : Feeds bound cond.code [cond.operand] cond.names.temps)
    (first : Sound cond.names.temps ⟨thenCode, between⟩)
    (second : Sound between.temps ⟨elseCode, after⟩) :
    Sound bound
      ⟨branchCode cond (.block firstBlock) (.block secondBlock) thenCode elseCode, after⟩ where
  wired := by
    have tested : Wired bound (cond.code ++ [.ifFalseGoto cond.operand (.block firstBlock)])
        cond.names.temps := test.consume rfl rfl
    have skip := (Wired.silent (.goto (.block secondBlock)) rfl rfl between.temps).append
      (.silent (.label (.block firstBlock)) rfl rfl between.temps)
    have closing := Wired.silent (.label (.block secondBlock)) rfl rfl after.temps
    exact (((tested.append first.wired).append skip).append second.wired).append closing
  contained := by
    apply jumpsWithin_branchCode (test.jumpsWithin _)
    · exact first.contained.mono fun _ member => by simp [branchCode, member]
    · exact second.contained.mono fun _ member => by simp [branchCode, member]
    · simp [branchCode]
    · simp [branchCode]

theorem jumpsWithin_loopCode {whole bodyCode : Code} (test : JumpsWithin whole cond.code)
    (body : JumpsWithin whole bodyCode) (startDefined : .label (.block firstBlock) ∈ whole)
    (endDefined : .label (.block secondBlock) ∈ whole) :
    JumpsWithin whole (loopCode cond (.block firstBlock) (.block secondBlock) bodyCode) := by
  have opening : JumpsWithin whole [.label (.block firstBlock)] := .plain rfl nofun
  have branch : JumpsWithin whole [.ifFalseGoto cond.operand (.block secondBlock)] :=
    .jump rfl endDefined
  have again : JumpsWithin whole [.goto (.block firstBlock)] := .jump rfl startDefined
  have closing : JumpsWithin whole [.label (.block secondBlock)] := .plain rfl nofun
  exact (((opening.append test).append branch).append body).append (again.append closing)

theorem sound_loopCode {bodyCode : Code}
    (test : Feeds bound cond.code [cond.operand] cond.names.temps)
    (body : Sound cond.names.temps ⟨bodyCode, after⟩) :
    Sound bound ⟨loopCode cond (.block firstBlock) (.block secondBlock) bodyCode, after⟩ where
  wired := by
    have opening := Wired.silent (.label (.block firstBlock)) rfl rfl bound
    have tested : Wired bound (cond.code ++ [.ifFalseGoto cond.operand (.block secondBlock)])
        cond.names.temps := test.consume rfl rfl
    have closing : Wired after.temps [.goto (.block firstBlock), .label (.block secondBlock)]
        after.temps :=
      (Wired.silent (.goto (.block firstBlock)) rfl rfl after.temps).append
        (.silent (.label (.block secondBlock)) rfl rfl after.temps)
    have all := ((opening.append tested).append body.wired).append closing
    simpa only [loopCode, List.append_assoc] using all
  contained := by
    apply jumpsWithin_loopCode (test.jumpsWithin _)
    · exact body.contained.mono fun _ member => by simp [loopCode, member]
    · simp [loopCode]
    · simp [loopCode]

end Labels

mutual

theorem sound_lowerStmt (names : NameSupply) : ∀ stmt : Stmt,
    Sound names.temps (lowerStmt table scope names stmt)
  | .declare declaration => sound_lowerDeclaration table scope names declaration
  | .assign assignment => sound_lowerStore table scope names assignment.target assignment.value
  | .branch cond thenBlock none =>
      sound_branchCode (feeds_lowerExpr table scope names cond)
        (sound_lowerStmts (lowerExpr table scope names cond).names.takeLabel.takeLabel thenBlock)
        (.nothing _)
  | .branch cond thenBlock (some elseBlock) =>
      sound_branchCode (feeds_lowerExpr table scope names cond)
        (sound_lowerStmts (lowerExpr table scope names cond).names.takeLabel.takeLabel thenBlock)
        (sound_lowerStmts _ elseBlock)
  | .whileLoop cond body =>
      sound_loopCode (feeds_lowerExpr table scope names.takeLabel.takeLabel cond)
        (sound_lowerStmts _ body)
  | .forLoop init cond update body =>
      (sound_lowerInit table scope names init).append
        (sound_loopCode
          (feeds_lowerExpr table scope
            (lowerInit table scope names init).names.takeLabel.takeLabel cond)
          ((sound_lowerStmts _ body).append
            (sound_lowerStore table scope _ update.target update.value)))
  | .ret value => sound_lowerReturn table scope names value
  | .call callee args => by
      have feeds := feeds_lowerExpr table scope names (.call callee args)
      exact ⟨feeds.wired, feeds.jumpsWithin _⟩
  | .block stmts => sound_lowerStmts names stmts

theorem sound_lowerStmts (names : NameSupply) : ∀ stmts : List Stmt,
    Sound names.temps (lowerStmts table scope names stmts)
  | [] => .nothing names
  | stmt :: rest => (sound_lowerStmt names stmt).append (sound_lowerStmts _ rest)

end

/-! ### Functions -/

theorem wired_lowerFunctions (names : NameSupply) (functions : List FunctionDecl) :
    Wired names.temps (lowerFunctions table names functions).code
      (lowerFunctions table names functions).names.temps := by
  induction functions generalizing names with
  | nil => exact .nil _
  | cons function rest inductionHypothesis =>
      have entry := Wired.silent (.label (.function function.name.name)) rfl rfl names.temps
      have body := (sound_lowerStmts table function.name.name names function.body).wired
      exact (entry.append body).append (inductionHypothesis _)

/-- The jumps of functions go to block labels that are defined among them. -/
theorem jumps_lowerFunctions (names : NameSupply) (functions : List FunctionDecl) :
    ∀ instruction ∈ (lowerFunctions table names functions).code, ∀ target,
      instruction.jumpTarget? = some target →
        ∃ block, target = .block block ∧
          .label target ∈ (lowerFunctions table names functions).code := by
  induction functions generalizing names with
  | nil => exact fun _ member => nomatch member
  | cons function rest inductionHypothesis =>
      have body := (sound_lowerStmts table function.name.name names function.body).contained
      intro instruction member target jumps
      rcases List.mem_append.1 member with inFirst | inRest
      · rcases List.mem_cons.1 inFirst with rfl | inBody
        · cases jumps
        · obtain ⟨block, isBlock, defined⟩ := body.jumps instruction inBody target jumps
          exact ⟨block, isBlock, List.mem_append_left _ (List.mem_cons_of_mem _ defined)⟩
      · obtain ⟨block, isBlock, defined⟩ := inductionHypothesis _ instruction inRest target jumps
        exact ⟨block, isBlock, List.mem_append_right _ defined⟩

/-- The entry of a name is defined once for each function of that name. -/
theorem count_entry_lowerFunctions (names : NameSupply) (functions : List FunctionDecl)
    (name : String) :
    (lowerFunctions table names functions).code.count (.label (.function name)) =
      (functions.map (·.name.name)).count name := by
  induction functions generalizing names with
  | nil => rfl
  | cons function rest inductionHypothesis =>
      have body := (sound_lowerStmts table function.name.name names function.body).contained
      simp only [lowerFunctions, lowerFunction, List.cons_append, List.count_cons,
        List.count_append, List.count_eq_zero.2 (body.entries name), inductionHypothesis,
        List.map_cons]
      by_cases same : function.name.name = name <;> simp [same]

variable {table}

theorem count_label_lowerFunctions {functions : List FunctionDecl}
    (distinct : (functions.map (·.name.name)).Nodup)
    (fewLabels : (lowerFunctions table .start functions).names.labels ≤ 2 ^ 32) (label : Label) :
    (lowerFunctions table .start functions).code.count (.label label) ≤ 1 := by
  cases label with
  | block index =>
      have defined := (draws_lowerFunctions table .start functions).labels.defines fewLabels index
      rw [← Code.labelCount_eq_count, defined]
      exact span_le_one _ _ _
  | function name =>
      rw [count_entry_lowerFunctions]
      exact List.nodup_iff_count_le_one.1 distinct name

/-- Functions with different names lower to well-formed code. -/
theorem wellFormed_lowerFunctions {functions : List FunctionDecl}
    (distinct : (functions.map (·.name.name)).Nodup)
    (fewTemps : (lowerFunctions table .start functions).names.temps ≤ 2 ^ 32)
    (fewLabels : (lowerFunctions table .start functions).names.labels ≤ 2 ^ 32) :
    (lowerFunctions table .start functions).code.WellFormed := by
  have labels := count_label_lowerFunctions distinct fewLabels
  have wired := wired_lowerFunctions table .start functions
  refine ⟨labels, ?_, wired.writeCount_le_one fewTemps, wired.readCount_le_one fewTemps, ?_⟩
  · intro instruction member target jumps
    obtain ⟨_, _, defined⟩ :=
      jumps_lowerFunctions table .start functions instruction member target jumps
    have atLeastOnce := List.count_pos_iff.2 defined
    have atMostOnce := labels target
    omega
  · exact (wired.fed fewTemps).mono fun _ => Instruction.isStraight_of_isEvaluation

end Lowering

end MiddleEnd
