/-!
Contract: the options of a compilation.

Owns: the options, their defaults, and the failures to obtain them.
Does not own: the files that options are read from (`MiddleEnd.Options.Folder`) and the text in them
(`MiddleEnd.Options.Document`).
-/

namespace MiddleEnd

/-- The options of one compilation. -/
structure Options where
  /-- The function whose entry always counts as reachable. -/
  entryFunction : String := "main"
  /-- Whether code is optimized at all. -/
  optimize : Bool := true
deriving DecidableEq, Repr, Inhabited

namespace Options

/-- Why options could not be obtained. -/
inductive Failure where
  /-- The text is no options document. -/
  | malformed
  /-- There is no text to be had at a path. -/
  | unreadable (path : String)
  /-- The text at a path is no options document. -/
  | malformedFile (path : String)
deriving DecidableEq, Repr, Inhabited

/-- The text of a failure. -/
def Failure.message : Failure → String
  | malformed => "Failed to parse compile options"
  | unreadable path => "Failed to read options file: " ++ path
  | malformedFile path => "Failed to parse options file: " ++ path

end Options

end MiddleEnd
