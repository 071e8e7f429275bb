import MiddleEnd.Optimizer.Propagation

/-!
Contract: propagation replaces a read by the literal that the text assigns last before it.

The pass carries what it knows from one instruction to the next. What it knows at an index depends
on the instructions of the given code before it and on nothing else, so the pass has a closed form:
a read of an operand becomes the literal of the last assignment of a literal to that operand above
it, and stays as it is if there is none (`propagate_exact`). Control flow, other writes to the same
slot, and literals that the pass itself puts in do not matter.

Owns: the last literal above an index, and that propagation puts in this literal.
Does not own: when this preserves what the code does.
-/

namespace MiddleEnd

/-- The instruction with every operand that it reads replaced. -/
def Instruction.mapOperands (replace : Operand → Operand) : Instruction → Instruction
  | assign dest value => assign dest (replace value)
  | binary dest op left right => binary dest op (replace left) (replace right)
  | label name => label name
  | goto target => goto target
  | ifFalseGoto cond target => ifFalseGoto (replace cond) target

theorem Instruction.substitute_eq_mapOperands (known : Literals) (instruction : Instruction) :
    instruction.substitute known = instruction.mapOperands (Operand.substitute known) := by
  cases instruction <;> rfl

/-! ### One instruction -/

namespace Operand

/-- An assignment of a literal is known afterwards. -/
theorem substitute_learn_assign {dest : Dest} {operand : Operand}
    (readsBack : dest.operand? = some operand) (value : Int64) (known : Literals) :
    operand.substitute ((Instruction.assign dest (.const value)).learn known) = const value := by
  cases dest with
  | slot place =>
      cases readsBack
      simp [substitute, Instruction.learn]
  | ret => cases readsBack
  | param => cases readsBack

/-- Any other instruction leaves what is known of an operand as it is. -/
theorem substitute_learn_other {instruction : Instruction} {operand : Operand}
    (other : ∀ dest value, instruction = .assign dest (.const value) →
      dest.operand? ≠ some operand) (known : Literals) :
    operand.substitute (instruction.learn known) = operand.substitute known := by
  unfold Instruction.learn
  split
  · rename_i place value
    cases operand with
    | const _ => rfl
    | empty => rfl
    | slot read =>
        have different : read ≠ place := by
          intro same
          exact other (.slot place) value rfl (by rw [same]; rfl)
        have unequal : (read == place) = false := beq_false_of_ne different
        simp only [substitute, List.lookup_cons, unequal]
  · rfl

end Operand

/-! ### The text above an index -/

namespace Code

/-- The instruction at an index assigns a literal to what an operand reads. -/
def AssignsLiteral (code : Code) (index : Nat) (operand : Operand) (value : Int64) : Prop :=
  ∃ dest, code[index]? = some (.assign dest (.const value)) ∧ dest.operand? = some operand

/-- The literal that is last assigned to what an operand reads, above an index. -/
def LastLiteral (code : Code) (index : Nat) (operand : Operand) (value : Int64) : Prop :=
  ∃ source < index, code.AssignsLiteral source operand value ∧
    ∀ later other, source < later → later < index → ¬code.AssignsLiteral later operand other

/-- What an operand becomes at an index: the last literal above it, or itself if there is none. -/
def Becomes (code : Code) (index : Nat) (operand new : Operand) : Prop :=
  (∃ value, code.LastLiteral index operand value ∧ new = .const value) ∨
    (∀ source < index, ∀ value, ¬code.AssignsLiteral source operand value) ∧ new = operand

variable {code : Code} {index : Nat} {operand new : Operand}

theorem Becomes.of_assigns {value : Int64} (assigns : code.AssignsLiteral index operand value) :
    code.Becomes (index + 1) operand (.const value) := by
  refine Or.inl ⟨value, ⟨index, Nat.lt_succ_self index, assigns, ?_⟩, rfl⟩
  intro later other after before
  omega

theorem Becomes.of_silent (becomes : code.Becomes index operand new)
    (silent : ∀ value, ¬code.AssignsLiteral index operand value) :
    code.Becomes (index + 1) operand new := by
  rcases becomes with ⟨value, ⟨source, above, assigns, last⟩, isLiteral⟩ | ⟨never, isSame⟩
  · refine Or.inl ⟨value, ⟨source, by omega, assigns, ?_⟩, isLiteral⟩
    intro later other after before
    by_cases here : later = index
    · rw [here]
      exact silent other
    · exact last later other after (by omega)
  · refine Or.inr ⟨?_, isSame⟩
    intro source above value
    by_cases here : source = index
    · rw [here]
      exact silent value
    · exact never source (by omega) value

/-- The literals that the pass knows at an index. -/
def literalsAbove (code : Code) (index : Nat) : Literals :=
  (code.take index).foldl Instruction.learn []

theorem literalsAbove_succ (code : Code) (index : Nat) :
    code.literalsAbove (index + 1) =
      code[index]?.toList.foldl Instruction.learn (code.literalsAbove index) := by
  rw [literalsAbove, List.take_add_one, List.foldl_append]
  rfl

/-- What the pass knows at an index is the last literal above it, for every operand. -/
theorem becomes_substitute (code : Code) (index : Nat) (operand : Operand) :
    code.Becomes index operand (operand.substitute (code.literalsAbove index)) := by
  induction index with
  | zero =>
      refine Or.inr ⟨fun source above => absurd above (Nat.not_lt_zero source), ?_⟩
      cases operand <;> rfl
  | succ index inductionHypothesis =>
      rw [literalsAbove_succ]
      cases here : code[index]? with
      | none =>
          show code.Becomes (index + 1) operand (operand.substitute (code.literalsAbove index))
          apply inductionHypothesis.of_silent
          rintro value ⟨dest, assigned, _⟩
          rw [here] at assigned
          cases assigned
      | some instruction =>
          show code.Becomes (index + 1) operand
            (operand.substitute (instruction.learn (code.literalsAbove index)))
          by_cases assigns : ∃ value, code.AssignsLiteral index operand value
          · obtain ⟨value, dest, assigned, readsBack⟩ := assigns
            rw [here, Option.some.injEq] at assigned
            rw [assigned, Operand.substitute_learn_assign readsBack]
            exact .of_assigns ⟨dest, assigned ▸ here, readsBack⟩
          · have silent : ∀ value, ¬code.AssignsLiteral index operand value :=
              fun value assigned => assigns ⟨value, assigned⟩
            rw [Operand.substitute_learn_other]
            · exact inductionHypothesis.of_silent silent
            · intro dest value assigned readsBack
              exact silent value ⟨dest, assigned ▸ here, readsBack⟩

/-! ### Whole code -/

theorem length_propagateFrom (known : Literals) (code : Code) :
    (code.propagateFrom known).length = code.length := by
  induction code generalizing known with
  | nil => rfl
  | cons instruction rest inductionHypothesis =>
      rw [propagateFrom, List.length_cons, inductionHypothesis, List.length_cons]

theorem getElem?_propagateFrom (known : Literals) (code : Code) (index : Nat) :
    (code.propagateFrom known)[index]? = code[index]?.map
      (Instruction.substitute ((code.take index).foldl Instruction.learn known)) := by
  induction code generalizing known index with
  | nil => rfl
  | cons instruction rest inductionHypothesis =>
      cases index with
      | zero => rfl
      | succ index => exact inductionHypothesis (instruction.learn known) index

end Code

/-- Propagation keeps the length of code, and at each index every operand that is read, and nothing
else, becomes the literal that the given code last assigns to it above that index. An operand to
which the given code assigns no literal above stays as it is, whatever the pass has put in. -/
theorem propagate_exact (code : Code) :
    code.propagate.length = code.length ∧
      ∀ index, ∃ replace : Operand → Operand,
        (∀ operand, code.Becomes index operand (replace operand)) ∧
          code.propagate[index]? = code[index]?.map (Instruction.mapOperands replace) := by
  refine ⟨code.length_propagateFrom [], ?_⟩
  intro index
  refine ⟨Operand.substitute (code.literalsAbove index), code.becomes_substitute index, ?_⟩
  rw [Code.propagate, Code.getElem?_propagateFrom]
  congr 1
  funext instruction
  exact instruction.substitute_eq_mapOperands _

-- The literal that replaces `x` is not handed on to `y`, and the variable `t0` is no temporary.
example :
    Code.propagate
      [.assign (.slot (.var "x")) (.const 5), .assign (.slot (.var "y")) (.slot (.var "x")),
        .assign (.slot (.var "t0")) (.slot (.var "y")), .assign (.slot (.var "t0")) (.const 7),
        .assign .param (.slot (.temp ⟨0⟩)), .assign .param (.slot (.var "t0"))] =
      [.assign (.slot (.var "x")) (.const 5), .assign (.slot (.var "y")) (.const 5),
        .assign (.slot (.var "t0")) (.slot (.var "y")), .assign (.slot (.var "t0")) (.const 7),
        .assign .param (.slot (.temp ⟨0⟩)), .assign .param (.const 7)] := by
  decide

end MiddleEnd
