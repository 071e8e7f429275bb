/-!
Contract: places in a source text.

A position is a line and a column, both 32-bit words. Position `0:0` stands for text that was
never read from a file, such as a tree put together by hand.

Owns: the position type, its order and its text.
Does not own: spans, files or anything that advances a position.
-/

namespace MiddleEnd

/-- A line and a column of a source text. -/
structure Position where
  line : UInt32
  column : UInt32
deriving DecidableEq, Repr, Inhabited

namespace Position

/-- The position of text that has no source. -/
def nowhere : Position := ⟨0, 0⟩

/-- Positions are ordered by line and, on one line, by column. -/
def compare (left right : Position) : Ordering :=
  (Ord.compare left.line.toNat right.line.toNat).then
    (Ord.compare left.column.toNat right.column.toNat)

/-- A position is written as its line, a colon and its column. -/
def render (position : Position) : String :=
  toString position.line.toNat ++ ":" ++ toString position.column.toNat

end Position

end MiddleEnd
