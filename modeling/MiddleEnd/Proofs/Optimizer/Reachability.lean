import Mathlib.Logic.Relation
import MiddleEnd.Proofs.Code.Labels

/-!
Contract: the search finds exactly the indices that control can reach.

`Reaches` is reachability as a closure: the first index and the entry of a function are reached,
and from a reached index so are the target of its jump and, unless the instruction ends the run,
the next index. A search takes one pending index after another, in whatever order (`Search.Step`).
Every turn keeps the invariant `Search.Explores`, so a search that is done has seen all of these
indices and nothing else. Every turn also lowers `Search.weight`, so each order comes to an end.
`Code.explore` is the search in one of these orders (`mem_reachable_iff`).

Owns: reachability as an inductive relation, searches, and that `Code.reachable` decides it.
-/

namespace MiddleEnd

/-- Whether control never goes on with the next instruction. -/
def Instruction.endsRun : Instruction → Bool
  | goto _ => true
  | other => other.isReturn

namespace Code

/-- The indices that control can reach from the first instruction or from the entry function. -/
inductive Reaches (code : Code) (entry : String) : Nat → Prop where
  | first (inside : 0 < code.length) : Reaches code entry 0
  | entered {index : Nat} (defined : code.labelIndex? (.function entry) = some index) :
      Reaches code entry index
  | jump {index target : Nat} {instruction : Instruction} {label : Label}
      (reached : Reaches code entry index) (fetched : code[index]? = some instruction)
      (jumps : instruction.jumpTarget? = some label)
      (defined : code.labelIndex? label = some target) : Reaches code entry target
  | next {index : Nat} {instruction : Instruction}
      (reached : Reaches code entry index) (fetched : code[index]? = some instruction)
      (goesOn : instruction.endsRun = false) (inside : index + 1 < code.length) :
      Reaches code entry (index + 1)

/-- The successors of an instruction are the target of its jump and the next index. -/
theorem mem_successors_iff (code : Code) (index : Nat) (instruction : Instruction)
    (other : Nat) :
    other ∈ code.successors index instruction ↔
      (∃ label, instruction.jumpTarget? = some label ∧ code.labelIndex? label = some other) ∨
        (instruction.endsRun = false ∧ other = index + 1) := by
  cases instruction with
  | assign dest value =>
      cases dest <;>
        simp [successors, Instruction.jumpTarget?, Instruction.endsRun, Instruction.isReturn]
  | binary _ _ _ _ =>
      simp [successors, Instruction.jumpTarget?, Instruction.endsRun, Instruction.isReturn]
  | label _ =>
      simp [successors, Instruction.jumpTarget?, Instruction.endsRun, Instruction.isReturn]
  | goto target =>
      simp [successors, Instruction.jumpTarget?, Instruction.endsRun, Option.mem_toList]
  | ifFalseGoto cond target =>
      simp [successors, Instruction.jumpTarget?, Instruction.endsRun, Instruction.isReturn,
        Option.mem_toList]

theorem Reaches.successor {code : Code} {entry : String} {index other : Nat}
    (reached : code.Reaches entry index) (inside : index < code.length)
    (follows : other ∈ code.successors index code[index]) (valid : other < code.length) :
    code.Reaches entry other := by
  have fetched : code[index]? = some code[index] := List.getElem?_eq_getElem inside
  rw [mem_successors_iff] at follows
  rcases follows with ⟨label, jumps, defined⟩ | ⟨goesOn, isNext⟩
  · exact .jump reached fetched jumps defined
  · subst isNext
    exact .next reached fetched goesOn valid

end Code

/-! ### The search -/

/-- The state of a search: the indices that wait for their turn, and those seen so far. -/
structure Search where
  pending : List Nat
  seen : List Nat

namespace Search

/-- One turn of a search, which may take any pending index. The index is put aside if it has been
seen or lies outside the code; else it is seen now, and its successors wait as well. -/
inductive Step (code : Code) : Search → Search → Prop where
  | skip {pending rest seen : List Nat} {index : Nat} (taken : pending.Perm (index :: rest))
      (done : index < code.length → index ∈ seen) : Step code ⟨pending, seen⟩ ⟨rest, seen⟩
  | visit {pending rest next seen : List Nat} {index : Nat} (taken : pending.Perm (index :: rest))
      (new : index ∉ seen) (inside : index < code.length)
      (pushed : next.Perm (code.successors index code[index] ++ rest)) :
      Step code ⟨pending, seen⟩ ⟨next, index :: seen⟩

/-- The search at its start. -/
def start (code : Code) (entry : String) : Search := ⟨code.entries entry, []⟩

/-- The search comes to this state from its start. -/
def Occurs (code : Code) (entry : String) (search : Search) : Prop :=
  Relation.ReflTransGen (Step code) (start code entry) search

variable {code : Code} {entry : String} {search next : Search} {index : Nat}

/-- An index of the code has been seen or waits for its turn. -/
def Covers (code : Code) (search : Search) (index : Nat) : Prop :=
  index < code.length → index ∈ search.seen ∨ index ∈ search.pending

theorem Covers.step (covers : Covers code search index) (step : Step code search next) :
    Covers code next index := by
  intro valid
  cases step with
  | skip taken done =>
      rcases covers valid with before | waits
      · exact Or.inl before
      · rcases List.mem_cons.1 (taken.mem_iff.1 waits) with here | later
        · exact Or.inl (here ▸ done (here ▸ valid))
        · exact Or.inr later
  | visit taken new inside pushed =>
      rcases covers valid with before | waits
      · exact Or.inl (List.mem_cons_of_mem _ before)
      · rcases List.mem_cons.1 (taken.mem_iff.1 waits) with here | later
        · exact Or.inl (here ▸ List.mem_cons_self)
        · exact Or.inr (pushed.mem_iff.2 (List.mem_append_right _ later))

/-- What holds of a search at each turn: it meets nothing but what can be reached, and it misses
neither a place where code is entered nor a successor of what it has seen. -/
structure Explores (code : Code) (entry : String) (search : Search) : Prop where
  pending : ∀ index ∈ search.pending, index < code.length → code.Reaches entry index
  seen : ∀ index ∈ search.seen, code.Reaches entry index
  entered : ∀ index ∈ code.entries entry, Covers code search index
  closed : ∀ index ∈ search.seen, ∀ inside : index < code.length,
    ∀ other ∈ code.successors index code[index], Covers code search other

theorem explores_start (code : Code) (entry : String) : Explores code entry (start code entry) where
  pending := by
    intro index member valid
    rcases List.mem_cons.1 member with isFirst | isEntry
    · rw [isFirst] at valid ⊢
      exact .first valid
    · exact .entered (Option.mem_toList.1 isEntry)
  seen := by
    intro index member
    cases member
  entered := fun _ member _ => Or.inr member
  closed := by
    intro index member
    cases member

theorem Explores.step (explores : Explores code entry search) (step : Step code search next) :
    Explores code entry next := by
  have entered : ∀ index ∈ code.entries entry, Covers code next index :=
    fun index member => (explores.entered index member).step step
  have closed : ∀ index ∈ search.seen, ∀ inside : index < code.length,
      ∀ other ∈ code.successors index code[index], Covers code next other :=
    fun index member inside other follows =>
      (explores.closed index member inside other follows).step step
  cases step with
  | skip taken done =>
      refine ⟨?_, explores.seen, entered, closed⟩
      intro other member
      exact explores.pending other (taken.mem_iff.2 (List.mem_cons_of_mem _ member))
  | @visit pending rest next seen index taken new inside pushed =>
      have reached : code.Reaches entry index :=
        explores.pending index (taken.mem_iff.2 List.mem_cons_self) inside
      refine ⟨?_, ?_, entered, ?_⟩
      · intro other member valid
        rcases List.mem_append.1 (pushed.mem_iff.1 member) with follows | later
        · exact reached.successor inside follows valid
        · exact explores.pending other (taken.mem_iff.2 (List.mem_cons_of_mem index later)) valid
      · intro other member
        rcases List.mem_cons.1 member with here | before
        · exact here ▸ reached
        · exact explores.seen other before
      · intro source member sourceInside other follows
        rcases List.mem_cons.1 member with here | before
        · subst here
          exact fun _ => Or.inr (pushed.mem_iff.2 (List.mem_append_left rest follows))
        · exact closed source before sourceInside other follows

theorem Occurs.explores (occurs : Occurs code entry search) : Explores code entry search := by
  induction occurs with
  | refl => exact explores_start code entry
  | tail _ step inductionHypothesis => exact inductionHypothesis.step step

/-- A search that is done has seen exactly what can be reached. -/
theorem Explores.mem_seen_iff (explores : Explores code entry search)
    (done : search.pending = []) : index ∈ search.seen ↔ code.Reaches entry index := by
  have seen_of_covers : ∀ other, Covers code search other → other < code.length →
      other ∈ search.seen := by
    intro other covers valid
    rcases covers valid with before | waits
    · exact before
    · rw [done] at waits
      cases waits
  have follow : ∀ source other instruction, source ∈ search.seen →
      code[source]? = some instruction → other ∈ code.successors source instruction →
      other < code.length → other ∈ search.seen := by
    intro source other instruction member fetched follows valid
    obtain ⟨inside, isHere⟩ := List.getElem?_eq_some_iff.1 fetched
    rw [← isHere] at follows
    exact seen_of_covers other (explores.closed source member inside other follows) valid
  constructor
  · exact explores.seen index
  · intro reached
    induction reached with
    | first inside => exact seen_of_covers 0 (explores.entered 0 List.mem_cons_self) inside
    | @entered index defined =>
        apply seen_of_covers index
        · exact explores.entered index (List.mem_cons_of_mem 0 (Option.mem_toList.2 defined))
        · exact Code.lt_length_of_labelIndex? defined
    | @jump index target instruction label _ fetched jumps defined inductionHypothesis =>
        apply follow index target instruction inductionHypothesis fetched
        · rw [Code.mem_successors_iff]
          exact Or.inl ⟨label, jumps, defined⟩
        · exact Code.lt_length_of_labelIndex? defined
    | @next index instruction _ fetched goesOn inside inductionHypothesis =>
        apply follow index (index + 1) instruction inductionHypothesis fetched
        · rw [Code.mem_successors_iff]
          exact Or.inr ⟨goesOn, rfl⟩
        · exact inside

/-- `Code.explore` takes the first pending index at each turn, until none is left. -/
theorem run_explore (code : Code) (pending seen : List Nat) :
    Relation.ReflTransGen (Step code) ⟨pending, seen⟩ ⟨[], code.explore pending seen⟩ := by
  fun_induction Code.explore code pending seen with
  | case1 seen => exact .refl
  | case2 seen index rest visited inductionHypothesis =>
      exact .head (.skip (.refl _) fun _ => visited) inductionHypothesis
  | case3 seen index rest visited inside inductionHypothesis =>
      exact .head (.visit (.refl _) visited inside (.refl _)) inductionHypothesis
  | case4 seen index rest visited outside inductionHypothesis =>
      exact .head (.skip (.refl _) fun inside => absurd inside outside) inductionHypothesis

theorem occurs_reachable (code : Code) (entry : String) :
    Occurs code entry ⟨[], code.reachable entry⟩ :=
  run_explore code (code.entries entry) []

/-! ### How long a search takes -/

/-- What is left to do: an unseen index brings at most two more to look at. -/
def weight (code : Code) (search : Search) : Nat :=
  2 * code.unseen search.seen + search.pending.length

theorem Step.weight_lt (step : Step code search next) : weight code next < weight code search := by
  cases step with
  | skip taken done =>
      have fewer := taken.length_eq
      simp only [weight, fewer, List.length_cons]
      omega
  | @visit pending rest next seen index taken new inside pushed =>
      have fewer := taken.length_eq
      have more := pushed.length_eq
      have atMostTwo := Code.length_successors_le code index code[index]
      have oneSeen := Code.unseen_cons_lt inside new
      rw [List.length_append] at more
      simp only [weight, fewer, List.length_cons]
      omega

theorem weight_start_le (code : Code) (entry : String) :
    weight code (start code entry) ≤ 2 * code.length + 2 := by
  have unseen : code.unseen [] ≤ code.length := by
    have counted : code.unseen [] ≤ (List.range code.length).length := List.countP_le_length
    rwa [List.length_range] at counted
  have entries : (code.entries entry).length ≤ 2 := Nat.succ_le_succ Option.length_toList_le
  show 2 * code.unseen [] + (code.entries entry).length ≤ 2 * code.length + 2
  omega

theorem length_le_weight {turns : List Search}
    (chain : List.IsChain (Step code) (search :: turns)) : turns.length ≤ weight code search := by
  induction turns generalizing search with
  | nil => exact Nat.zero_le _
  | cons next rest inductionHypothesis =>
      rw [List.isChain_cons_cons] at chain
      have later := inductionHypothesis chain.2
      have lower := chain.1.weight_lt
      rw [List.length_cons]
      omega

/-- A search that cannot go on is done. -/
theorem pending_eq_nil_of_stuck (stuck : ∀ next, ¬Step code search next) : search.pending = [] := by
  obtain ⟨pending, seen⟩ := search
  cases pending with
  | nil => rfl
  | cons index rest =>
      exfalso
      by_cases new : index < code.length ∧ index ∉ seen
      · exact stuck _ (.visit (.refl _) new.2 new.1 (.refl _))
      · apply stuck ⟨rest, seen⟩
        apply Step.skip (.refl _)
        intro inside
        by_contra unseen
        exact new ⟨inside, unseen⟩

end Search

/-- The reachable indices are found, and no others. -/
theorem Code.mem_reachable_iff {code : Code} {entry : String} {index : Nat} :
    index ∈ code.reachable entry ↔ code.Reaches entry index :=
  (Search.occurs_reachable code entry).explores.mem_seen_iff rfl

end MiddleEnd
