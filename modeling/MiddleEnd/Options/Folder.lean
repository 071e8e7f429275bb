import MiddleEnd.Options.Document

/-!
Contract: options that are kept in a file.

Files are values here: a node is a file with its bytes or a folder of named nodes. Reading options
needs a file whose bytes are UTF-8; a missing file, a folder and other bytes are all unreadable.

Owns: the file tree, paths in it, and the choice between a file and the defaults.
Does not own: the text of options (`MiddleEnd.Options.Document`).
-/

namespace MiddleEnd

/-- A file with its bytes, or a folder with its named contents. -/
inductive Node where
  | file (bytes : ByteArray)
  | folder (contents : List (String × Node))

namespace Node

/-- Follow the steps of a path. An empty step and a dot stay in a folder; a file has nothing
inside. -/
def follow? : Node → List String → Option Node
  | node, [] => some node
  | file _, _ :: _ => none
  | folder contents, step :: rest =>
      if step = "" ∨ step = "." then (folder contents).follow? rest
      else
        match contents.lookup step with
        | some node => node.follow? rest
        | none => none

/-- The node at a relative path. -/
def find? (node : Node) (path : String) : Option Node := node.follow? (path.splitOn "/")

/-- The text of a file, if its bytes are one. -/
def text? : Node → Option String
  | file bytes => String.fromUTF8? bytes
  | folder _ => none

end Node

namespace Options

/-- The name under which a folder keeps its options. -/
def fileName : String := "minilang.toml"

/-- Read options from what was found at a path. -/
def ofNode (path : String) (found : Option Node) : Except Failure Options :=
  match found.bind Node.text? with
  | none => .error (.unreadable path)
  | some text =>
      match ofText text with
      | some options => .ok options
      | none => .error (.malformedFile path)

/-- Read options from a path in a folder, where the folder itself is at a path. -/
def ofFile (folder : Node) (folderPath path : String) : Except Failure Options :=
  if path.startsWith "/" then ofNode path none
  else ofNode (folderPath ++ "/" ++ path) (folder.find? path)

/-- Read the options that a folder keeps, or take the defaults if it keeps none. -/
def findIn (folder : Node) (folderPath : String) : Except Failure Options :=
  match folder.find? fileName with
  | none => .ok {}
  | some _ => ofFile folder folderPath fileName

end Options

end MiddleEnd
