import MiddleEnd.Json.Value
import MiddleEnd.Optimizer.Pipeline
import MiddleEnd.Options.Basic

/-!
Contract: the JSON form of passes and options.

Options are the one record that refuses keys it does not know, so that a misspelled option is not
taken for a default. Fields that are left out have their defaults.

Owns: the JSON form of passes and options.
-/

namespace MiddleEnd

def Pass.toJson (pass : Pass) : Json := .str pass.name

def Pass.ofJson? (json : Json) : Option Pass := json.bareVariant?.bind Pass.ofName?

def Options.toJson (options : Options) : Json :=
  .obj [("entry_function", .str options.entryFunction), ("optimize", .bool options.optimize)]

/-- Read a field that may be left out but not null. -/
def Json.withDefault {α : Type} (default : α) (decode : Json → Option α) : Option Json → Option α
  | none => some default
  | some json => decode json

/-- Read options from an object, or from an array of the first fields in order. -/
def Options.ofJson? (json : Json) : Option Options :=
  let defaults : Options := {}
  let build (entry optimize : Option Json) : Option Options := do
    return ⟨← Json.withDefault defaults.entryFunction Json.string? entry,
      ← Json.withDefault defaults.optimize Json.bool? optimize⟩
  match json with
  | .obj members =>
      if members.all fun member => ["entry_function", "optimize"].contains member.1 then
        build (members.lookup "entry_function") (members.lookup "optimize")
      else
        none
  | .arr [] => build none none
  | .arr [entry] => build (some entry) none
  | .arr [entry, optimize] => build (some entry) (some optimize)
  | _ => none

end MiddleEnd
