import Mathlib.Logic.Function.Defs
import MiddleEnd.Json.Code
import MiddleEnd.Json.Symbol

/-!
Contract: what is written as JSON is read back unchanged.

Every reader is first described on the shapes that encoders produce: a member of an object that is
written out, a variant, a word, a list. Each type is then read back from its own form, nested types
by induction on the tree. Decoders accept more than encoders write (records as arrays, unknown
keys), so only the way from a value to its form and back is lossless (`toJson_lossless`).

Owns: readers on written forms, and that every decoder undoes its encoder.
Does not own: the forms (`MiddleEnd.Json`).
-/

namespace MiddleEnd

namespace Json

/-- Decoding undoes encoding. -/
def Lossless {α : Type} (encode : α → Json) (decode : Json → Option α) : Prop :=
  ∀ value, decode (encode value) = some value

theorem Lossless.injective {α : Type} {encode : α → Json} {decode : Json → Option α}
    (lossless : Lossless encode decode) : Function.Injective encode := by
  intro left right same
  have readLeft := lossless left
  rw [same, lossless right] at readLeft
  exact (Option.some.inj readLeft).symm

/-! ### Parts -/

theorem sizeOf_first (key : String) (value : Json) (rest : List (String × Json)) :
    sizeOf value < sizeOf (obj ((key, value) :: rest)) := by
  simp only [obj.sizeOf_spec, List.cons.sizeOf_spec, Prod.mk.sizeOf_spec]
  omega

theorem sizeOf_rest (key : String) (value : Json) (rest : List (String × Json)) :
    sizeOf (obj rest) < sizeOf (obj ((key, value) :: rest)) := by
  simp only [obj.sizeOf_spec, List.cons.sizeOf_spec, Prod.mk.sizeOf_spec]
  omega

@[simp] theorem member?_first (key : String) (value : Json) (rest : List (String × Json)) :
    (obj ((key, value) :: rest)).member? key = some ⟨value, sizeOf_first key value rest⟩ := by
  simp [member?]

@[simp] theorem member?_rest {key other : String} (different : other ≠ key) (value : Json)
    (rest : List (String × Json)) :
    (obj ((other, value) :: rest)).member? key =
      ((obj rest).member? key).map fun part =>
        ⟨part.val, Nat.lt_trans part.property (sizeOf_rest other value rest)⟩ := by
  simp [member?, different, List.find?_map, Function.comp_def]

@[simp] theorem field?_obj (names : List String) (members : List (String × Json))
    (name : String) : (obj members).field? names name = (obj members).member? name := rfl

@[simp] theorem optionalField?_obj (names : List String) (members : List (String × Json))
    (name : String) :
    (obj members).optionalField? names name = some (((obj members).member? name).bind nullable) :=
  rfl

@[simp] theorem optionalMember_obj (members : List (String × Json)) (key : String) :
    (obj members).optionalMember key = ((obj members).member? key).bind nullable := rfl

/-- What follows the name of a variant sees that name, and so needs only one of its cases. -/
theorem bind_variant? {α : Type} (name : String) (content : Json)
    (next : String × (obj [(name, content)]).Part → Option α) :
    (obj [(name, content)]).variant? >>= next =
      next (name, ⟨content, sizeOf_first name content []⟩) := rfl

@[simp] theorem nullable_null {whole : Json} (smaller : sizeOf null < sizeOf whole) :
    nullable ⟨null, smaller⟩ = none := rfl

@[simp] theorem nullable_obj {whole : Json} (members : List (String × Json))
    (smaller : sizeOf (obj members) < sizeOf whole) :
    nullable ⟨obj members, smaller⟩ = some ⟨obj members, smaller⟩ := rfl

@[simp] theorem nullable_block {whole : Json} (stmts : List Json)
    (smaller : sizeOf (block stmts) < sizeOf whole) :
    nullable ⟨block stmts, smaller⟩ = some ⟨block stmts, smaller⟩ := rfl

/-! ### Scalars -/

@[simp] theorem string?_str (text : String) : (str text).string? = some text := rfl

@[simp] theorem bool?_bool (value : Bool) : (bool value).bool? = some value := rfl

@[simp] theorem uint32?_int (word : UInt32) : (int word.toNat).uint32? = some word := by
  have bounds : 0 ≤ (word.toNat : Int) ∧ (word.toNat : Int) ≤ UInt32.size - 1 := by
    have small := word.toNat_lt
    simp only [UInt32.size]
    omega
  rw [uint32?, between?, if_pos bounds, Option.map_some, Int.toNat_natCast, UInt32.ofNat_toNat]

@[simp] theorem uint64?_int (value : Nat) :
    (int value).uint64? = if value < UInt64.size then some (UInt64.ofNat value) else none := by
  have bounds : 0 ≤ (value : Int) ∧ (value : Int) ≤ UInt64.size - 1 ↔ value < UInt64.size := by
    simp only [UInt64.size]
    omega
  simp only [uint64?, between?, bounds]
  split <;> rfl

@[simp] theorem int64?_int (word : Int64) : (int word.toInt).int64? = some word := by
  have bounds : Int64.minValue.toInt ≤ word.toInt ∧ word.toInt ≤ Int64.maxValue.toInt :=
    ⟨word.minValue_le_toInt, word.toInt_le⟩
  rw [int64?, between?, if_pos bounds, Option.map_some, Int64.ofInt_toInt]

/-! ### Lists -/

theorem exists_items? (items : List Json) :
    ∃ parts, (arr items).items? = some parts ∧ parts.unattach = items := by
  refine ⟨_, rfl, ?_⟩
  rw [List.unattach, List.map_map]
  exact List.attach_map_subtype_val items

theorem list?_arr {α : Type} {encode : α → Json} {decode : Json → Option α}
    (lossless : Lossless encode decode) (values : List α) :
    (arr (values.map encode)).list? decode = some values := by
  show (values.map encode).mapM decode = some values
  induction values with
  | nil => rfl
  | cons value rest inductionHypothesis => simp [lossless value, inductionHypothesis]

@[simp] theorem strings?_arr (texts : List String) :
    (arr (texts.map str)).strings? = some texts :=
  list?_arr string?_str texts

end Json

/-! ### Positions, identifiers, operators -/

@[simp] theorem Position.ofJson?_toJson (position : Position) :
    ofJson? position.toJson = some position := by
  simp [ofJson?, toJson]

@[simp] theorem Ident.ofJson?_toJson (ident : Ident) : ofJson? ident.toJson = some ident := by
  simp [ofJson?, toJson]

@[simp] theorem Operator.ofJson?_toJson (op : Operator) : ofJson? op.toJson = some op := by
  cases op <;> rfl

/-! ### Expressions -/

namespace Expr

theorem callOfJson?_obj (callee : Ident) (args : List Json) :
    callOfJson? (.obj [("callee", callee.toJson), ("args", .arr args)]) =
      (args.mapM ofJson?).bind fun args => some (callee, args) := by
  obtain ⟨parts, isItems, whole⟩ := Json.exists_items? args
  rw [callOfJson?]
  simp [isItems, whole]

mutual

@[simp] theorem ofJson?_toJson : ∀ expr : Expr, ofJson? expr.toJson = some expr
  | .binary op left right => by
      rw [toJson, ofJson?, Json.bind_variant?]
      simp [ofJson?_toJson left, ofJson?_toJson right]
  | .ident name => by
      rw [toJson, ofJson?, Json.bind_variant?]
      simp
  | .int value => by
      rw [toJson, ofJson?, Json.bind_variant?]
      simp
  | .paren inner => by
      rw [toJson, ofJson?, Json.bind_variant?]
      simp [ofJson?_toJson inner]
  | .call callee args => by
      rw [toJson, ofJson?, Json.bind_variant?]
      simp [callOfJson?_obj, mapM_listToJson args]

theorem mapM_listToJson : ∀ exprs : List Expr, (listToJson exprs).mapM ofJson? = some exprs
  | [] => rfl
  | expr :: rest => by simp [listToJson, ofJson?_toJson expr, mapM_listToJson rest]

end

@[simp] theorem callOfJson?_call (callee : Ident) (args : List Expr) :
    callOfJson? (.obj [("callee", callee.toJson), ("args", .arr (listToJson args))]) =
      some (callee, args) := by
  rw [callOfJson?_obj, mapM_listToJson, Option.bind_some]

/-- An expression is never null, so an absent one is told apart. -/
theorem exists_toJson (expr : Expr) : ∃ members, expr.toJson = .obj members := by
  cases expr <;> exact ⟨_, rfl⟩

@[simp] theorem optionOfJson?_nullable {whole : Json} (value : Option Expr)
    (smaller : sizeOf (optionToJson value) < sizeOf whole) :
    optionOfJson? (Json.nullable ⟨optionToJson value, smaller⟩) = some value := by
  cases value with
  | none => rfl
  | some expr =>
      have read := expr.ofJson?_toJson
      obtain ⟨members, isObject⟩ := expr.exists_toJson
      simp only [optionToJson] at smaller ⊢
      simp only [isObject] at smaller read ⊢
      simp [optionOfJson?, read]

end Expr

/-! ### Declarations and assignments -/

@[simp] theorem Declaration.ofJson?_toJson (declaration : Declaration) :
    ofJson? declaration.toJson = some declaration := by
  simp [ofJson?, toJson]

@[simp] theorem Assignment.ofJson?_toJson (assignment : Assignment) :
    ofJson? assignment.toJson = some assignment := by
  simp [ofJson?, toJson]

@[simp] theorem LoopInit.ofJson?_toJson (init : LoopInit) : ofJson? init.toJson = some init := by
  cases init
  all_goals
    rw [toJson, ofJson?, Json.bind_variant?]
    simp

/-! ### Statements -/

namespace Stmt

theorem blockOfJson?_block (stmts : List Json) :
    blockOfJson? (.block stmts) = stmts.mapM ofJson? := by
  obtain ⟨parts, isItems, whole⟩ := Json.exists_items? stmts
  rw [Json.block, blockOfJson?]
  simp [isItems, whole]

mutual

theorem ofJson?_toJson : ∀ stmt : Stmt, ofJson? stmt.toJson = some stmt
  | .declare declaration => by
      rw [toJson, ofJson?, Json.bind_variant?]
      simp
  | .assign assignment => by
      rw [toJson, ofJson?, Json.bind_variant?]
      simp
  | .branch cond thenBlock none => by
      rw [toJson, ofJson?, Json.bind_variant?]
      simp [blockOfJson?_block, mapM_listToJson thenBlock]
  | .branch cond thenBlock (some elseBlock) => by
      rw [toJson, ofJson?, Json.bind_variant?]
      simp [blockOfJson?_block, mapM_listToJson thenBlock, mapM_listToJson elseBlock]
  | .whileLoop cond body => by
      rw [toJson, ofJson?, Json.bind_variant?]
      simp [blockOfJson?_block, mapM_listToJson body]
  | .forLoop init cond update body => by
      rw [toJson, ofJson?, Json.bind_variant?]
      simp [blockOfJson?_block, mapM_listToJson body]
  | .ret none => by
      rw [toJson, ofJson?, Json.bind_variant?]
      simp [Expr.optionToJson]
  | .ret (some value) => by
      have read := value.ofJson?_toJson
      obtain ⟨members, isObject⟩ := value.exists_toJson
      rw [isObject] at read
      rw [toJson, ofJson?, Json.bind_variant?]
      simp [Expr.optionToJson, isObject, read]
  | .call callee args => by
      rw [toJson, ofJson?, Json.bind_variant?]
      simp
  | .block stmts => by
      rw [toJson, ofJson?, Json.bind_variant?]
      simp [blockOfJson?_block, mapM_listToJson stmts]

theorem mapM_listToJson : ∀ stmts : List Stmt, (listToJson stmts).mapM ofJson? = some stmts
  | [] => rfl
  | stmt :: rest => by simp [listToJson, ofJson?_toJson stmt, mapM_listToJson rest]

end

@[simp] theorem blockOfJson?_listToJson (stmts : List Stmt) :
    blockOfJson? (.block (listToJson stmts)) = some stmts := by
  rw [blockOfJson?_block, mapM_listToJson]

end Stmt

/-! ### Functions and programs -/

theorem Parameter.ofJson?_toJson (parameter : Parameter) :
    ofJson? parameter.toJson = some parameter := by
  simp [ofJson?, toJson]

theorem FunctionDecl.ofJson?_toJson (function : FunctionDecl) :
    ofJson? function.toJson = some function := by
  have params := Json.list?_arr Parameter.ofJson?_toJson function.params
  simp [ofJson?, toJson, params]

theorem Program.ofJson?_toJson (program : Program) : ofJson? program.toJson = some program := by
  have functions := Json.list?_arr FunctionDecl.ofJson?_toJson program.functions
  simp [ofJson?, toJson, functions]

/-! ### Code -/

@[simp] theorem Temp.ofJson?_toJson (temp : Temp) : ofJson? temp.toJson = some temp := by
  simp [ofJson?, toJson]

@[simp] theorem Label.ofJson?_toJson (label : Label) : ofJson? label.toJson = some label := by
  cases label
  all_goals
    rw [toJson, ofJson?, Json.bind_variant?]
    simp

namespace Slot

@[simp] theorem ofJson?_toJson (place : Slot) : ofJson? place.toJson = some place := by
  cases place
  all_goals
    rw [toJson, ofJson?, Json.bind_variant?]
    simp

/-- A slot is never a bare name, so it is told apart from the cases without content. -/
@[simp] theorem bareVariant?_toJson (place : Slot) : place.toJson.bareVariant? = none := by
  cases place <;> rfl

@[simp] theorem constOfJson?_toJson (place : Slot) : Operand.constOfJson? place.toJson = none := by
  cases place <;> rfl

end Slot

@[simp] theorem Dest.ofJson?_toJson (dest : Dest) : ofJson? dest.toJson = some dest := by
  cases dest with
  | slot place => simp [ofJson?, toJson]
  | ret => rfl
  | param => rfl

@[simp] theorem Operand.ofJson?_toJson (operand : Operand) :
    ofJson? operand.toJson = some operand := by
  cases operand with
  | const value =>
      have literal : constOfJson? (const value).toJson = some (const value) := by
        rw [toJson, constOfJson?, Json.bind_variant?]
        simp
      rw [ofJson?, literal]
      rfl
  | slot place => simp [ofJson?, toJson]
  | empty => rfl

theorem Instruction.ofJson?_toJson (instruction : Instruction) :
    ofJson? instruction.toJson = some instruction := by
  cases instruction
  all_goals
    rw [toJson, ofJson?, Json.bind_variant?]
    simp

theorem Code.ofJson?_toJson (code : Code) : ofJson? code.toJson = some code :=
  Json.list?_arr Instruction.ofJson?_toJson code

/-! ### Symbols -/

@[simp] theorem Category.ofJson?_toJson (category : Category) :
    ofJson? category.toJson = some category := by
  cases category <;> rfl

/-- A symbol is read back exactly if its order is a 64-bit word, as the order of every symbol that
fits into memory is. -/
theorem Symbol.ofJson?_toJson (symbol : Symbol) :
    ofJson? symbol.toJson =
      if symbol.insertionOrder < UInt64.size then some symbol else none := by
  by_cases isWord : symbol.insertionOrder < UInt64.size
  · simp [ofJson?, toJson, isWord, UInt64.toNat_ofNat_of_lt' isWord]
  · simp [ofJson?, toJson, isWord]

/-! ### All forms -/

/-- Reading the JSON form of a program, a function, a statement, an expression, an instruction, a
symbol, a label, a destination or an operand gives back what was written, whatever its depth, its
strings and its numbers. The order of a symbol is a number of 64 bits in this form, and a symbol
with a larger one is refused. So two programs, or two pieces of code, never have the same form. -/
theorem toJson_lossless :
    (Json.Lossless Program.toJson Program.ofJson? ∧
      Json.Lossless FunctionDecl.toJson FunctionDecl.ofJson? ∧
      Json.Lossless Stmt.toJson Stmt.ofJson? ∧
      Json.Lossless Expr.toJson Expr.ofJson? ∧
      Json.Lossless Instruction.toJson Instruction.ofJson? ∧
      (∀ symbol : Symbol, Symbol.ofJson? symbol.toJson =
        if symbol.insertionOrder < UInt64.size then some symbol else none) ∧
      Json.Lossless Label.toJson Label.ofJson? ∧
      Json.Lossless Dest.toJson Dest.ofJson? ∧
      Json.Lossless Operand.toJson Operand.ofJson?) ∧
    Function.Injective Program.toJson ∧ Function.Injective Code.toJson := by
  have programs : Json.Lossless Program.toJson Program.ofJson? := Program.ofJson?_toJson
  have codes : Json.Lossless Code.toJson Code.ofJson? := Code.ofJson?_toJson
  exact ⟨⟨programs, FunctionDecl.ofJson?_toJson, Stmt.ofJson?_toJson, Expr.ofJson?_toJson,
    Instruction.ofJson?_toJson, Symbol.ofJson?_toJson, Label.ofJson?_toJson, Dest.ofJson?_toJson,
    Operand.ofJson?_toJson⟩, programs.injective, codes.injective⟩

end MiddleEnd
