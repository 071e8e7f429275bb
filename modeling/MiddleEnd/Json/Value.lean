/-!
Contract: JSON values, and the shapes that data takes in them.

Two shapes carry all structured data. A *record* is an object whose keys are its field names; it
may also be given as an array that lists the fields in order. A *variant* is an object with one
key, the name of the case; a case without content is its bare name.

Every reader below hands out parts of a value together with the fact that they are smaller than the
whole, so that decoders of nested data recurse on the value itself.

Owns: the value type, its shapes, and the ranges of numbers.
Does not own: the text of JSON.
-/

namespace MiddleEnd

/-- A JSON value. Integers are exact; any other number is kept as it was written. -/
inductive Json where
  | null
  | bool (value : Bool)
  | int (value : Int)
  | decimal (literal : String)
  | str (value : String)
  | arr (items : List Json)
  | obj (members : List (String × Json))
deriving Repr, Inhabited

namespace Json

/-- A value that is smaller than the one it was taken from. -/
abbrev Part (whole : Json) := { part : Json // sizeOf part < sizeOf whole }

/-! ### Scalars -/

/-- The text of a string. -/
def string? : Json → Option String
  | str value => some value
  | _ => none

/-- The truth value of a boolean. -/
def bool? : Json → Option Bool
  | bool value => some value
  | _ => none

/-- An integer between two bounds, both included. -/
def between? (low high : Int) : Json → Option Int
  | int value => if low ≤ value ∧ value ≤ high then some value else none
  | _ => none

/-- A signed 64-bit integer. -/
def int64? (json : Json) : Option Int64 :=
  (json.between? Int64.minValue.toInt Int64.maxValue.toInt).map Int64.ofInt

/-- An unsigned 32-bit integer. -/
def uint32? (json : Json) : Option UInt32 :=
  (json.between? 0 (UInt32.size - 1)).map fun value => UInt32.ofNat value.toNat

/-- An unsigned 64-bit integer. -/
def uint64? (json : Json) : Option UInt64 :=
  (json.between? 0 (UInt64.size - 1)).map fun value => UInt64.ofNat value.toNat

/-! ### Parts -/

private theorem sizeOf_of_mem_members {key : String} {value : Json}
    {members : List (String × Json)} (found : (key, value) ∈ members) :
    sizeOf value < sizeOf (obj members) := by
  have inList := List.sizeOf_lt_of_mem found
  simp only [Prod.mk.sizeOf_spec, obj.sizeOf_spec] at inList ⊢
  omega

private theorem sizeOf_of_mem_items {item : Json} {items : List Json} (found : item ∈ items) :
    sizeOf item < sizeOf (arr items) := by
  have inList := List.sizeOf_lt_of_mem found
  simp only [arr.sizeOf_spec]
  omega

/-- The value under a key of an object. -/
def member? (json : Json) (key : String) : Option json.Part :=
  match json with
  | obj members =>
      (members.attach.find? (·.val.1 == key)).map fun found =>
        ⟨found.val.2, sizeOf_of_mem_members found.property⟩
  | _ => none

/-- The items of an array. -/
def items? (json : Json) : Option (List json.Part) :=
  match json with
  | arr items => some (items.attach.map fun item => ⟨item.val, sizeOf_of_mem_items item.property⟩)
  | _ => none

/-- The name and the content of a variant. -/
def variant? (json : Json) : Option (String × json.Part) :=
  match json with
  | obj [(name, content)] =>
      some (name, ⟨content, sizeOf_of_mem_members (List.mem_singleton.2 rfl)⟩)
  | _ => none

/-- The name of a variant without content: the bare name, or the name with a null beside it. -/
def bareVariant? : Json → Option String
  | str name => some name
  | obj [(name, null)] => some name
  | _ => none

/-- A field of a record, given the names of all its fields in order. -/
def field? (names : List String) (json : Json) (name : String) : Option json.Part :=
  match json with
  | obj members => (obj members).member? name
  | arr items =>
      if items.length = names.length then
        match (arr items).items? with
        | some parts => parts[names.idxOf name]?
        | none => none
      else
        none
  | _ => none

/-- A part that may be null: `none` stands for the null. -/
def nullable {whole : Json} (part : whole.Part) : Option whole.Part :=
  match part with
  | ⟨null, _⟩ => none
  | present => some present

/-- A member of an object that may be null or missing. -/
def optionalMember (json : Json) (key : String) : Option json.Part :=
  (json.member? key).bind nullable

/-- A field of a record that may be null, or missing if the record is an object. Fails if the value
is no record with these fields. -/
def optionalField? (names : List String) (json : Json) (name : String) :
    Option (Option json.Part) :=
  match json with
  | obj members => some ((obj members).optionalMember name)
  | arr items => ((arr items).field? names name).map nullable
  | _ => none

/-- The items of an array, each decoded. -/
def list? {α : Type} (decode : Json → Option α) (json : Json) : Option (List α) :=
  match json with
  | arr items => items.mapM decode
  | _ => none

/-- A list of strings. -/
def strings? (json : Json) : Option (List String) := json.list? string?

end Json

end MiddleEnd
