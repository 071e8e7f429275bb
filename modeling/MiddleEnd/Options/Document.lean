import MiddleEnd.Options.Basic

/-!
Contract: the text form of options, a small TOML document.

Each line holds a setting, a comment, both or neither. Two settings exist, `entry_function` with a
string and `optimize` with a truth value; each may be given once and in any order. Strings have the
four forms of TOML: quoted with escapes or literal, each on one line or over several. Anything else
that TOML knows (tables, arrays, numbers, dates, dotted keys) can only be a setting that does not
exist or a value of the wrong kind, so it is refused like any other malformed text.

A reader takes characters from the front and returns what it read with the characters that are left.

Owns: the reading of options from text.
Does not own: where the text comes from.
-/

namespace MiddleEnd

namespace Options

namespace Document

/-! ### Characters -/

/-- Blanks may stand between the parts of a line. -/
def isBlank (char : Char) : Bool := char == ' ' || char == '\t'

/-- Characters that may stand for themselves in strings and comments: all but control characters,
the tab excepted. -/
def isPlain (char : Char) : Bool := char == '\t' || (char.toNat ≥ 0x20 && char.toNat != 0x7F)

/-- Characters of a key without quotes. -/
def isKeyChar (char : Char) : Bool := char.isAlphanum || char == '_' || char == '-'

/-- The value of a hexadecimal digit. -/
def hexDigit? (char : Char) : Option Nat :=
  if char.isDigit then some (char.toNat - '0'.toNat)
  else if 'a' ≤ char ∧ char ≤ 'f' then some (char.toNat - 'a'.toNat + 10)
  else if 'A' ≤ char ∧ char ≤ 'F' then some (char.toNat - 'A'.toNat + 10)
  else none

/-- The character of a code point, if it is one. -/
def char? (code : Nat) : Option Char := if code.isValidChar then some (Char.ofNat code) else none

/-- The character that a letter stands for after a backslash. -/
def escaped? : Char → Option Char
  | 'b' => some '\x08'
  | 't' => some '\t'
  | 'n' => some '\n'
  | 'f' => some '\x0c'
  | 'r' => some '\r'
  | '"' => some '"'
  | '\\' => some '\\'
  | _ => none

/-! ### Strings -/

/-- What a reader found, and the characters after it. -/
abbrev Found (α : Type) := Option (α × List Char)

/-- Put a character in front of what was found. -/
def withChar (char : Char) : Found (List Char) → Found (List Char)
  | some (chars, rest) => some (char :: chars, rest)
  | none => none

/-- The place inside a string with escapes. -/
inductive Place where
  /-- Among ordinary characters. -/
  | text
  /-- After a backslash. -/
  | escape
  /-- In a code point, with so many digits to come after those read. -/
  | code (left value : Nat)
  /-- After a backslash and blanks, where the line has to end. -/
  | lineEnd
  /-- After a backslash at the end of a line, where blanks and newlines do not count. -/
  | skip
deriving DecidableEq, Repr, Inhabited

/-- One character inside an escape: where it leads, and the character it completes. -/
def escapeStep (place : Place) (char : Char) : Option (Place × Option Char) :=
  match place with
  | .escape =>
      if char = 'u' then some (.code 4 0, none)
      else if char = 'U' then some (.code 8 0, none)
      else (escaped? char).map fun meant => (.text, some meant)
  | .code left value =>
      (hexDigit? char).bind fun digit =>
        if left = 1 then (char? (16 * value + digit)).map fun meant => (.text, some meant)
        else some (.code (left - 1) (16 * value + digit), none)
  | _ => none

/-- The rest of a quoted string on one line. -/
def quoted : Place → List Char → Found (List Char)
  | _, [] => none
  | .text, '"' :: rest => some ([], rest)
  | .text, '\\' :: rest => quoted .escape rest
  | .text, char :: rest => if isPlain char then withChar char (quoted .text rest) else none
  | place, char :: rest =>
      match escapeStep place char with
      | some (next, some meant) => withChar meant (quoted next rest)
      | some (next, none) => quoted next rest
      | none => none

/-- The rest of a literal string on one line. -/
def literal : List Char → Found (List Char)
  | [] => none
  | '\'' :: rest => some ([], rest)
  | char :: rest => if isPlain char then withChar char (literal rest) else none

/-- The rest of a quoted string over several lines. Up to two quotes may stand before the three
that end it. -/
def quotedLines : Place → List Char → Found (List Char)
  | _, [] => none
  | .escape, '\n' :: rest => quotedLines .skip rest
  | .escape, '\r' :: '\n' :: rest => quotedLines .skip rest
  | .escape, ' ' :: rest => quotedLines .lineEnd rest
  | .escape, '\t' :: rest => quotedLines .lineEnd rest
  | .lineEnd, '\n' :: rest => quotedLines .skip rest
  | .lineEnd, '\r' :: '\n' :: rest => quotedLines .skip rest
  | .lineEnd, ' ' :: rest => quotedLines .lineEnd rest
  | .lineEnd, '\t' :: rest => quotedLines .lineEnd rest
  | .lineEnd, _ :: _ => none
  | .skip, '\n' :: rest => quotedLines .skip rest
  | .skip, '\r' :: '\n' :: rest => quotedLines .skip rest
  | .skip, ' ' :: rest => quotedLines .skip rest
  | .skip, '\t' :: rest => quotedLines .skip rest
  | .escape, char :: rest =>
      match escapeStep .escape char with
      | some (next, some meant) => withChar meant (quotedLines next rest)
      | some (next, none) => quotedLines next rest
      | none => none
  | .code left value, char :: rest =>
      match escapeStep (.code left value) char with
      | some (next, some meant) => withChar meant (quotedLines next rest)
      | some (next, none) => quotedLines next rest
      | none => none
  | _, '"' :: '"' :: '"' :: '"' :: '"' :: rest => some (['"', '"'], rest)
  | _, '"' :: '"' :: '"' :: '"' :: rest => some (['"'], rest)
  | _, '"' :: '"' :: '"' :: rest => some ([], rest)
  | _, '\\' :: rest => quotedLines .escape rest
  | _, '\n' :: rest => withChar '\n' (quotedLines .text rest)
  | _, '\r' :: '\n' :: rest => withChar '\n' (quotedLines .text rest)
  | _, char :: rest => if isPlain char then withChar char (quotedLines .text rest) else none

/-- The rest of a literal string over several lines. -/
def literalLines : List Char → Found (List Char)
  | [] => none
  | '\'' :: '\'' :: '\'' :: '\'' :: '\'' :: rest => some (['\'', '\''], rest)
  | '\'' :: '\'' :: '\'' :: '\'' :: rest => some (['\''], rest)
  | '\'' :: '\'' :: '\'' :: rest => some ([], rest)
  | '\n' :: rest => withChar '\n' (literalLines rest)
  | '\r' :: '\n' :: rest => withChar '\n' (literalLines rest)
  | char :: rest => if isPlain char then withChar char (literalLines rest) else none

/-! ### Lines -/

/-- The text after one newline, if it starts with one. -/
def newline? : List Char → Option (List Char)
  | '\n' :: rest => some rest
  | '\r' :: '\n' :: rest => some rest
  | _ => none

/-- The text without a newline at its front. -/
def dropNewline (text : List Char) : List Char := (newline? text).getD text

/-- The text after the end of a line, before which there may be blanks and a comment. -/
def endLine? (text : List Char) : Option (List Char) :=
  let ahead := text.dropWhile isBlank
  let afterComment := match ahead with
    | '#' :: comment => comment.dropWhile isPlain
    | _ => ahead
  if afterComment.isEmpty then some [] else newline? afterComment

/-- The value of a setting. -/
inductive Value where
  | text (value : String)
  | truth (value : Bool)
deriving DecidableEq, Repr, Inhabited

/-- Make a string value of characters. -/
def textValue : Found (List Char) → Found Value
  | some (chars, rest) => some (.text (String.ofList chars), rest)
  | none => none

/-- Read a value. A newline right after the opening of a string over several lines does not
count. -/
def value? : List Char → Found Value
  | '"' :: '"' :: '"' :: rest => textValue (quotedLines .text (dropNewline rest))
  | '"' :: rest => textValue (quoted .text rest)
  | '\'' :: '\'' :: '\'' :: rest => textValue (literalLines (dropNewline rest))
  | '\'' :: rest => textValue (literal rest)
  | 't' :: 'r' :: 'u' :: 'e' :: rest => some (.truth true, rest)
  | 'f' :: 'a' :: 'l' :: 's' :: 'e' :: rest => some (.truth false, rest)
  | _ => none

/-- Read a key, with or without quotes. -/
def key? : List Char → Found (List Char)
  | '"' :: rest => quoted .text rest
  | '\'' :: rest => literal rest
  | text =>
      let chars := text.takeWhile isKeyChar
      if chars.isEmpty then none else some (chars, text.dropWhile isKeyChar)

/-- Read a key, an equals sign, a value and the end of the line. -/
def setting? (text : List Char) : Option ((String × Value) × List Char) := do
  let (key, afterKey) ← key? text
  match afterKey.dropWhile isBlank with
  | '=' :: afterSign =>
      let (value, afterValue) ← value? (afterSign.dropWhile isBlank)
      let rest ← endLine? afterValue
      return ((String.ofList key, value), rest)
  | _ => none

/-! ### Documents -/

/-- The settings met so far. -/
structure Settings where
  entryFunction : Option String := none
  optimize : Option Bool := none
deriving DecidableEq, Repr, Inhabited

/-- Note a setting. It is refused if it does not exist, if its value is of the wrong kind, or if it
has been noted before. -/
def Settings.note? (settings : Settings) (key : String) (value : Value) : Option Settings :=
  match key, value with
  | "entry_function", .text name =>
      if settings.entryFunction.isSome then none
      else some { settings with entryFunction := some name }
  | "optimize", .truth wanted =>
      if settings.optimize.isSome then none
      else some { settings with optimize := some wanted }
  | _, _ => none

/-- Read one line: nothing but blanks and a comment, or a setting. -/
def line? (settings : Settings) (text : List Char) : Option (Settings × List Char) :=
  match endLine? text with
  | some rest => some (settings, rest)
  | none => do
      let ((key, value), rest) ← setting? (text.dropWhile isBlank)
      return (← settings.note? key value, rest)

/-- Read lines up to the end of the text. Each line takes at least one character. -/
def lines? (settings : Settings) (text : List Char) : Option Settings :=
  if text.isEmpty then
    some settings
  else
    match line? settings text with
    | none => none
    | some (next, rest) =>
        if rest.length < text.length then lines? next rest else none
termination_by text.length

/-- The text without a byte order mark at its front. -/
def dropMark : List Char → List Char
  | '\uFEFF' :: rest => rest
  | text => text

end Document

/-- Read options from text. Settings that are not given have their defaults. -/
def ofText (text : String) : Option Options :=
  (Document.lines? {} (Document.dropMark text.toList)).map fun settings =>
    let defaults : Options := {}
    { entryFunction := settings.entryFunction.getD defaults.entryFunction
      optimize := settings.optimize.getD defaults.optimize }

/-- Read options from text, or say that it is malformed. -/
def parse (text : String) : Except Failure Options :=
  match ofText text with
  | some options => .ok options
  | none => .error .malformed

end Options

end MiddleEnd
