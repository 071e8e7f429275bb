import MiddleEnd.Code.Instruction

/-!
Contract: fresh temporaries and fresh block labels.

Both are numbered from zero by counters of their own, so taking a temporary never changes the next
label. Names are distinct as long as fewer than 2^32 of a kind are taken.

Owns: the two counters.
Does not own: function labels, which carry the function's name.
-/

namespace MiddleEnd

/-- How many temporaries and block labels have been taken so far. -/
structure NameSupply where
  temps : Nat
  labels : Nat
deriving DecidableEq, Repr, Inhabited

namespace NameSupply

/-- The supply from which nothing has been taken. -/
def start : NameSupply := ⟨0, 0⟩

/-- The temporary that is taken next. -/
def nextTemp (names : NameSupply) : Temp := ⟨UInt32.ofNat names.temps⟩

/-- The block label that is taken next. -/
def nextLabel (names : NameSupply) : Label := .block (UInt32.ofNat names.labels)

/-- The supply after `nextTemp` has been taken. -/
def takeTemp (names : NameSupply) : NameSupply := { names with temps := names.temps + 1 }

/-- The supply after `nextLabel` has been taken. -/
def takeLabel (names : NameSupply) : NameSupply := { names with labels := names.labels + 1 }

end NameSupply

end MiddleEnd
