import MiddleEnd.Code.Instruction

/-!
Contract: the printed form of code, and the way back to the instructions' texts.

A listing is a title line, an empty line, and one numbered line per instruction. `instructionTexts`
recovers the texts from a listing by its layout alone; it succeeds on every text and knows nothing
about instructions.

Owns: the layout of a listing and the notion of a line.
Does not own: the text of an instruction (`Instruction.render`).
-/

namespace MiddleEnd

namespace Listing

/-- The first line of a listing. -/
def title : String := "// Three-address code"

/-- The place of an instruction, in at least three digits. -/
def number (index : Nat) : String :=
  let digits := toString index
  String.ofList (List.replicate (3 - digits.length) '0') ++ digits

/-- The line of the instruction at an index. -/
def line (index : Nat) (instruction : Instruction) : String :=
  number index ++ ": " ++ instruction.render ++ "\n"

/-- The lines of code whose first instruction stands at an index. -/
def linesFrom : Nat → Code → String
  | _, [] => ""
  | index, instruction :: rest => line index instruction ++ linesFrom (index + 1) rest

/-- The listing of code: the title, an empty line, and a line for each instruction. -/
def render (code : Code) : String := title ++ "\n\n" ++ linesFrom 0 code

/-- Drop one carriage return from the front of a line that is held in reverse. -/
def dropReturn : List Char → List Char
  | '\r' :: held => held
  | held => held

/-- Split into lines, with the characters of the current line held in reverse. A line ends at a
newline and loses one carriage return before it. Text after the last newline is a line if there is
any, and it keeps its carriage return. -/
def splitLines (held : List Char) : List Char → List (List Char)
  | [] => if held.isEmpty then [] else [held.reverse]
  | '\n' :: rest => (dropReturn held).reverse :: splitLines [] rest
  | char :: rest => splitLines (char :: held) rest

/-- What follows the first colon and blank, if there is one. -/
def afterMark? : List Char → Option (List Char)
  | [] => none
  | ':' :: ' ' :: rest => some rest
  | _ :: rest => afterMark? rest

/-- The texts of the instructions in a listing: the two heading lines are skipped, and a line
without a mark is no instruction. -/
def instructionTexts (text : String) : List String :=
  ((splitLines [] text.toList).drop 2).filterMap fun line => (afterMark? line).map String.ofList

end Listing

end MiddleEnd
