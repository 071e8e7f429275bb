import Mathlib.Data.List.Flatten
import Mathlib.Data.List.Forall2
import MiddleEnd.Optimizer.Pipeline
import MiddleEnd.Proofs.Code.WellFormed
import MiddleEnd.Proofs.Optimizer.Reachability
import MiddleEnd.Proofs.Optimizer.Selection

/-!
Contract: every pass keeps closed and wired code so.

Propagation and folding rewrite instructions in place. They may take reads away, and change nothing
else that labels, control and temporaries see (`Instruction.Rewrites`). The two eliminations keep
some instructions. It is enough that they keep the labels that kept jumps go to, and the writes that
kept reads see: dead code because a read is reached only through its write, self-assignments because
a temporary that is assigned to itself has used up its one read.

Owns: the two rules for keeping code well formed, and that each pass follows one of them.
-/

namespace MiddleEnd

/-! ### Rewriting in place -/

/-- A new instruction reads at most what the old one reads, and is otherwise the same to labels,
control and temporaries. -/
structure Instruction.Rewrites (old new : Instruction) : Prop where
  label : ∀ name, new = .label name ↔ old = .label name
  jump : new.jumpTarget? = old.jumpTarget?
  temp : new.temp? = old.temp?
  straight : new.isStraight = old.isStraight
  reads : new.readTemps.Sublist old.readTemps

theorem Instruction.Rewrites.refl (instruction : Instruction) :
    instruction.Rewrites instruction :=
  ⟨fun _ => Iff.rfl, rfl, rfl, rfl, List.Sublist.refl _⟩

theorem Operand.temp?_substitute (known : Literals) (operand : Operand) :
    (operand.substitute known).temp?.toList.Sublist operand.temp?.toList := by
  cases operand with
  | const value => exact List.Sublist.refl _
  | empty => exact List.Sublist.refl _
  | slot place =>
      rw [substitute]
      cases known.lookup place with
      | none => exact List.Sublist.refl _
      | some value => exact List.nil_sublist _

theorem Instruction.rewrites_substitute (known : Literals) (instruction : Instruction) :
    instruction.Rewrites (instruction.substitute known) := by
  cases instruction with
  | assign dest value =>
      refine ⟨by simp [substitute], rfl, ?_, ?_, ?_⟩
      · cases dest with
        | slot place => cases place <;> rfl
        | ret => rfl
        | param => rfl
      · cases dest <;> rfl
      · simpa [readTemps, operands, Operand.temps, substitute] using
          value.temp?_substitute known
  | binary dest op left right =>
      refine ⟨by simp [substitute], rfl, rfl, rfl, ?_⟩
      have both := (left.temp?_substitute known).append (right.temp?_substitute known)
      simpa [readTemps, operands, Operand.temps, substitute] using both
  | label name => exact .refl _
  | goto target => exact .refl _
  | ifFalseGoto cond target =>
      refine ⟨by simp [substitute], rfl, rfl, rfl, ?_⟩
      simpa [readTemps, operands, Operand.temps, substitute] using cond.temp?_substitute known

theorem Instruction.rewrites_fold (instruction : Instruction) :
    instruction.Rewrites instruction.fold := by
  rcases instruction.fold_cases with same | ⟨_, _, _, _, _, rfl, _, folded⟩
  · rw [same]
    exact .refl _
  · rw [folded]
    exact ⟨by simp, rfl, rfl, rfl, List.nil_sublist _⟩

namespace Code

variable {code next : Code} {entry : String}

theorem exists_of_rewritten (rewritten : List.Forall₂ Instruction.Rewrites code next)
    {index : Nat} {new : Instruction} (here : next[index]? = some new) :
    ∃ old, code[index]? = some old ∧ old.Rewrites new := by
  induction rewritten generalizing index with
  | nil => cases here
  | @cons old other rest others rewrites _ inductionHypothesis =>
      cases index with
      | zero =>
          cases here
          exact ⟨old, rfl, rewrites⟩
      | succ index => exact inductionHypothesis here

theorem exists_rewritten (rewritten : List.Forall₂ Instruction.Rewrites code next)
    {index : Nat} {old : Instruction} (here : code[index]? = some old) :
    ∃ new, next[index]? = some new ∧ old.Rewrites new := by
  induction rewritten generalizing index with
  | nil => cases here
  | @cons other new rest others rewrites _ inductionHypothesis =>
      cases index with
      | zero =>
          cases here
          exact ⟨new, rfl, rewrites⟩
      | succ index => exact inductionHypothesis here

theorem countP_rewritten (rewritten : List.Forall₂ Instruction.Rewrites code next)
    {test : Instruction → Bool} (same : ∀ old new, old.Rewrites new → test new = test old) :
    next.countP test = code.countP test := by
  induction rewritten with
  | nil => rfl
  | cons rewrites _ inductionHypothesis =>
      rw [List.countP_cons, List.countP_cons, inductionHypothesis, same _ _ rewrites]

theorem count_label_rewritten (rewritten : List.Forall₂ Instruction.Rewrites code next)
    (label : Label) : next.count (.label label) = code.count (.label label) := by
  apply countP_rewritten rewritten
  intro old new rewrites
  rw [Bool.eq_iff_iff, beq_iff_eq, beq_iff_eq]
  exact rewrites.label label

theorem readCount_rewritten (rewritten : List.Forall₂ Instruction.Rewrites code next)
    (temp : Temp) : next.readCount temp ≤ code.readCount temp := by
  have fewer : (next.flatMap Instruction.readTemps).Sublist
      (code.flatMap Instruction.readTemps) := by
    induction rewritten with
    | nil => exact List.Sublist.refl _
    | cons rewrites _ inductionHypothesis =>
        rw [List.flatMap_cons, List.flatMap_cons]
        exact rewrites.reads.append inductionHypothesis
  exact fewer.count_le temp

/-- Code stays well formed if its instructions are rewritten in place. -/
theorem WellFormed.rewrite (wellFormed : code.WellFormed)
    (rewritten : List.Forall₂ Instruction.Rewrites code next) : next.WellFormed := by
  have sameLabels := count_label_rewritten rewritten
  have sameWrites : ∀ temp, next.writeCount temp = code.writeCount temp := by
    intro temp
    apply countP_rewritten rewritten
    intro old new rewrites
    rw [rewrites.temp]
  refine ⟨?_, ?_, ?_, ?_, ?_⟩
  · intro label
    rw [sameLabels]
    exact wellFormed.labels label
  · intro new member target jumps
    obtain ⟨index, here⟩ := List.mem_iff_getElem?.1 member
    obtain ⟨old, before, rewrites⟩ := exists_of_rewritten rewritten here
    rw [sameLabels]
    exact wellFormed.targets old (List.mem_of_getElem? before) target (rewrites.jump ▸ jumps)
  · intro temp
    rw [sameWrites]
    exact wellFormed.writes temp
  · intro temp
    exact Nat.le_trans (readCount_rewritten rewritten temp) (wellFormed.reads temp)
  · intro index new temp here reads
    obtain ⟨old, before, rewrites⟩ := exists_of_rewritten rewritten here
    rw [sameWrites]
    refine (wellFormed.fed index old temp before (rewrites.reads.subset reads)).imp id ?_
    rintro ⟨source, writer, below, atSource, writes, between⟩
    obtain ⟨newWriter, stillAtSource, rewritesWriter⟩ := exists_rewritten rewritten atSource
    refine ⟨source, newWriter, below, stillAtSource, rewritesWriter.temp.trans writes, ?_⟩
    intro middle other after beforeIndex atMiddle
    obtain ⟨oldOther, wasAtMiddle, rewritesOther⟩ := exists_of_rewritten rewritten atMiddle
    rw [rewritesOther.straight]
    exact between middle oldOther after beforeIndex wasAtMiddle

theorem propagateFrom_rewrites (known : Literals) (code : Code) :
    List.Forall₂ Instruction.Rewrites code (code.propagateFrom known) := by
  induction code generalizing known with
  | nil => exact .nil
  | cons instruction rest inductionHypothesis =>
      exact .cons (instruction.rewrites_substitute known) (inductionHypothesis _)

theorem fold_rewrites (code : Code) : List.Forall₂ Instruction.Rewrites code code.fold := by
  rw [fold, List.forall₂_map_right_iff, List.forall₂_same]
  intro instruction _
  exact instruction.rewrites_fold

/-! ### Keeping some instructions -/

theorem select_sublist (keep : Nat → Bool) (code : Code) : (code.select keep).Sublist code := by
  induction code generalizing keep with
  | nil => exact List.Sublist.refl _
  | cons instruction rest inductionHypothesis =>
      rw [select]
      split
      · exact (inductionHypothesis _).cons_cons instruction
      · exact (inductionHypothesis _).cons instruction

theorem eliminateDead_sublist (code : Code) (entry : String) :
    (code.eliminateDead entry).Sublist code := by
  rw [eliminateDead_eq_select]
  exact code.select_sublist _

/-- What stands in selected code was kept. -/
theorem exists_of_getElem?_select {keep : Nat → Bool} {moved : Nat} {instruction : Instruction}
    (here : (code.select keep)[moved]? = some instruction) :
    ∃ index, keep index = true ∧ rank keep index = moved ∧ code[index]? = some instruction := by
  induction code generalizing keep moved with
  | nil => cases here
  | cons first rest inductionHypothesis =>
      rw [select] at here
      split at here
      · rename_i kept
        cases moved with
        | zero => exact ⟨0, kept, rfl, here⟩
        | succ moved =>
            obtain ⟨index, keptLater, isRank, found⟩ := inductionHypothesis here
            refine ⟨index + 1, keptLater, ?_, found⟩
            rw [rank_succ_shift, if_pos kept, isRank]
      · rename_i dropped
        obtain ⟨index, keptLater, isRank, found⟩ := inductionHypothesis here
        refine ⟨index + 1, keptLater, ?_, found⟩
        rw [rank_succ_shift, if_neg dropped, Nat.add_zero, isRank]

theorem mem_select_of_keep {keep : Nat → Bool} {index : Nat} {instruction : Instruction}
    (kept : keep index = true) (here : code[index]? = some instruction) :
    instruction ∈ code.select keep :=
  List.mem_of_getElem? ((getElem?_select kept code).trans here)

/-- What is kept with an instruction: the label that it jumps to, and the write that it reads. -/
structure KeepsNeeded (code : Code) (keep : Nat → Bool) : Prop where
  target : ∀ index instruction label, keep index = true → code[index]? = some instruction →
    instruction.jumpTarget? = some label →
    ∀ goal, code[goal]? = some (.label label) → keep goal = true
  source : ∀ index reader temp, keep index = true → code[index]? = some reader →
    temp ∈ reader.readTemps → ∀ source writer, source < index → code[source]? = some writer →
    writer.temp? = some temp →
    (∀ between other, source < between → between < index → code[between]? = some other →
      other.isStraight = true) → keep source = true

/-- Code stays well formed if what the kept instructions need is kept. -/
theorem WellFormed.select {keep : Nat → Bool} (wellFormed : code.WellFormed)
    (needed : code.KeepsNeeded keep) : (code.select keep).WellFormed := by
  have sublist := select_sublist keep code
  refine ⟨?_, ?_, ?_, ?_, ?_⟩
  · intro label
    exact Nat.le_trans (sublist.count_le _) (wellFormed.labels label)
  · intro instruction member target jumps
    obtain ⟨moved, here⟩ := List.mem_iff_getElem?.1 member
    obtain ⟨index, kept, _, before⟩ := exists_of_getElem?_select here
    have once := wellFormed.targets instruction (List.mem_of_getElem? before) target jumps
    have defined : Instruction.label target ∈ code := List.count_pos_iff.1 (by omega)
    obtain ⟨goal, atGoal⟩ := List.mem_iff_getElem?.1 defined
    have keptGoal := needed.target index instruction target kept before jumps goal atGoal
    have stillDefined := List.count_pos_iff.2 (mem_select_of_keep keptGoal atGoal)
    have fewer := sublist.count_le (.label target)
    omega
  · intro temp
    exact Nat.le_trans sublist.countP_le (wellFormed.writes temp)
  · intro temp
    have fewer := sublist.flatMap Instruction.readTemps
    exact Nat.le_trans (fewer.count_le temp) (wellFormed.reads temp)
  · intro moved reader temp here reads
    obtain ⟨index, kept, rfl, before⟩ := exists_of_getElem?_select here
    rcases wellFormed.fed index reader temp before reads with
      unwritten | ⟨source, writer, below, atSource, writes, between⟩
    · left
      have fewer : (code.select keep).writeCount temp ≤ code.writeCount temp := sublist.countP_le
      omega
    · right
      have keptSource := needed.source index reader temp kept before reads source writer below
        atSource writes between
      refine ⟨rank keep source, writer, Nat.count_strict_mono keptSource below,
        (getElem?_select keptSource code).trans atSource, writes, ?_⟩
      intro middle other afterSource beforeIndex atMiddle
      obtain ⟨origin, _, rfl, atOrigin⟩ := exists_of_getElem?_select atMiddle
      apply between origin other _ _ atOrigin
      · by_contra notAfter
        have upTo := Nat.count_monotone (fun index => keep index = true) (Nat.le_of_not_lt notAfter)
        exact Nat.not_lt.2 upTo afterSource
      · by_contra notBefore
        have upTo := Nat.count_monotone (fun index => keep index = true)
          (Nat.le_of_not_lt notBefore)
        exact Nat.not_lt.2 upTo beforeIndex

/-! ### Dead code -/

/-- An index that holds no label is reached from the one before it. -/
theorem Reaches.previous {index : Nat} (reached : code.Reaches entry (index + 1))
    (noLabel : ∀ label, code[index + 1]? ≠ some (.label label)) : code.Reaches entry index := by
  cases reached with
  | entered defined => exact absurd (getElem?_of_labelIndex? defined) (noLabel _)
  | jump _ _ _ defined => exact absurd (getElem?_of_labelIndex? defined) (noLabel _)
  | next reached _ _ _ => exact reached

/-- An index is reached from an earlier one if no label stands between them. -/
theorem Reaches.back {source index : Nat} (reached : code.Reaches entry index)
    (before : source ≤ index)
    (noLabel : ∀ between label, source < between → between ≤ index →
      code[between]? ≠ some (.label label)) : code.Reaches entry source := by
  obtain ⟨distance, rfl⟩ := Nat.exists_eq_add_of_le before
  induction distance with
  | zero => exact reached
  | succ distance inductionHypothesis =>
      apply inductionHypothesis
      · apply reached.previous
        intro label
        exact noLabel (source + distance + 1) label (by omega) (by omega)
      · exact Nat.le_add_right source distance
      · intro between label after upTo
        exact noLabel between label after (by omega)

theorem keepsNeeded_reachable (wellFormed : code.WellFormed) (entry : String) :
    code.KeepsNeeded fun index => decide (index ∈ code.reachable entry) where
  target := by
    intro index instruction label kept here jumps goal atGoal
    rw [decide_eq_true_eq, mem_reachable_iff] at kept ⊢
    exact .jump kept here jumps (labelIndex?_of_count_le_one (wellFormed.labels label) atGoal)
  source := by
    intro index reader temp kept here reads source writer below atSource writes between
    rw [decide_eq_true_eq, mem_reachable_iff] at kept ⊢
    apply kept.back (Nat.le_of_lt below)
    intro middle label after upTo isLabel
    rcases Nat.lt_or_eq_of_le upTo with inside | atEnd
    · cases between middle _ after inside isLabel
    · rw [atEnd, here] at isLabel
      cases isLabel
      cases reads

/-! ### Self-assignments -/

theorem keepsNeeded_isProper (wellFormed : code.WellFormed) : code.KeepsNeeded code.isProper where
  target := by
    intro index instruction label _ _ _ goal atGoal
    simp [isProper, atGoal, Instruction.isSelfAssignment]
  source := by
    intro index reader temp _ here reads source writer below atSource writes _
    rw [isProper, atSource, Bool.not_eq_true']
    -- A temporary that is assigned to itself is read there already.
    by_contra isSelf
    rw [Bool.not_eq_false] at isSelf
    have readsItself : temp ∈ writer.readTemps := by
      cases writer with
      | assign dest value =>
          cases dest with
          | slot place =>
              cases place with
              | var name => cases writes
              | temp temporary =>
                  cases writes
                  have same : Operand.slot (.temp temp) = value := by
                    simpa [Instruction.isSelfAssignment, Dest.operand?] using isSelf
                  simp [← same, Instruction.readTemps, Instruction.operands, Operand.temps,
                    Operand.temp?]
          | ret => cases writes
          | param => cases writes
      | binary _ _ _ _ => cases isSelf
      | label _ => cases writes
      | goto _ => cases writes
      | ifFalseGoto _ _ => cases writes
    have twice := two_le_readCount below atSource here readsItself reads
    have once := wellFormed.reads temp
    omega

end Code

/-! ### Passes -/

theorem Pass.wellFormed_run {code : Code} (pass : Pass) (entry : String)
    (wellFormed : code.WellFormed) : (pass.run entry code).WellFormed := by
  cases pass with
  | deadCode =>
      rw [run, Code.eliminateDead_eq_select]
      exact wellFormed.select (Code.keepsNeeded_reachable wellFormed entry)
  | constantPropagation => exact wellFormed.rewrite (Code.propagateFrom_rewrites [] code)
  | constantFolding => exact wellFormed.rewrite code.fold_rewrites
  | redundantAssignment =>
      rw [run, Code.dropSelfAssignments_eq_select]
      exact wellFormed.select (Code.keepsNeeded_isProper wellFormed)

/-- Passes in any order and number keep code well formed. -/
theorem Optimizer.wellFormed_runAll {code : Code} (entry : String) (passes : List Pass)
    (wellFormed : code.WellFormed) : (runAll entry code passes).code.WellFormed := by
  induction passes generalizing code with
  | nil => exact wellFormed
  | cons pass rest inductionHypothesis =>
      exact inductionHypothesis (pass.wellFormed_run entry wellFormed)

end MiddleEnd
