import MiddleEnd.Code.Listing

/-!
Contract: when a listing gives the texts of the instructions back.

Names may hold any characters, so the text of an instruction may itself look like a part of a
listing. A colon and a blank in it do no harm: the first mark of a line is the one after the number,
which has digits only. A newline breaks the text in two, and a carriage return at its end is taken
for a part of the line's end. Everything else is read back, so the texts are recovered exactly if
none of them has a newline or ends in a carriage return (`instructionTexts_render_iff`).

Owns: how lines are split and marks are found in a listing.
Does not own: the listing (`MiddleEnd.Code.Listing`), and what the texts say about the instructions.
-/

namespace MiddleEnd

namespace Listing

/-! ### Lines -/

/-- A line without the carriage return at its end, if it has one. -/
def trimReturn (line : List Char) : List Char := (dropReturn line.reverse).reverse

theorem trimReturn_nil : trimReturn [] = [] := rfl

theorem trimReturn_concat (front : List Char) (char : Char) :
    trimReturn (front ++ [char]) = if char = '\r' then front else front ++ [char] := by
  rw [trimReturn, List.reverse_append, List.reverse_singleton, List.singleton_append]
  by_cases isReturn : char = '\r'
  · rw [if_pos isReturn, isReturn, dropReturn, List.reverse_reverse]
  · rw [if_neg isReturn, dropReturn, List.reverse_cons, List.reverse_reverse]
    exact fun _ same => isReturn (List.cons.inj same).1

theorem trimReturn_eq_self_iff (line : List Char) :
    trimReturn line = line ↔ line.getLast? ≠ some '\r' := by
  rcases List.eq_nil_or_concat line with rfl | ⟨front, char, rfl⟩
  · simp [trimReturn_nil]
  · rw [List.concat_eq_append, trimReturn_concat, List.getLast?_concat]
    split <;> simp [*]

/-- What stands before the end of a line is not touched. -/
theorem trimReturn_append {front : List Char} (keeps : front.getLast? ≠ some '\r')
    (back : List Char) : trimReturn (front ++ back) = front ++ trimReturn back := by
  rcases List.eq_nil_or_concat back with rfl | ⟨middle, char, rfl⟩
  · rw [trimReturn_nil, List.append_nil, (trimReturn_eq_self_iff front).2 keeps]
  · rw [List.concat_eq_append, ← List.append_assoc, trimReturn_concat, trimReturn_concat]
    split
    · rfl
    · rw [List.append_assoc]

theorem splitLines_append {front : List Char} (oneLine : '\n' ∉ front) (held rest : List Char) :
    splitLines held (front ++ '\n' :: rest) =
      (dropReturn (front.reverse ++ held)).reverse :: splitLines [] rest := by
  induction front generalizing held with
  | nil => rfl
  | cons char front inductionHypothesis =>
      rw [List.mem_cons, not_or] at oneLine
      have step : splitLines held (char :: (front ++ '\n' :: rest)) =
          splitLines (char :: held) (front ++ '\n' :: rest) := by
        rw [splitLines]
        exact Ne.symm oneLine.1
      rw [List.cons_append, step, inductionHypothesis oneLine.2, List.reverse_cons,
        List.append_assoc]
      rfl

/-- The first line is what stands before the first newline. -/
theorem splitLines_line {line : List Char} (oneLine : '\n' ∉ line) (rest : List Char) :
    splitLines [] (line ++ '\n' :: rest) = trimReturn line :: splitLines [] rest := by
  rw [splitLines_append oneLine, List.append_nil, trimReturn]

theorem newline_not_mem_dropReturn {held : List Char} (oneLine : '\n' ∉ held) :
    '\n' ∉ dropReturn held := by
  unfold dropReturn
  split
  · exact fun member => oneLine (List.mem_cons_of_mem _ member)
  · exact oneLine

theorem newline_not_mem_of_mem_splitLines {held text line : List Char} (oneLine : '\n' ∉ held)
    (member : line ∈ splitLines held text) : '\n' ∉ line := by
  fun_induction splitLines held text with
  | case1 held isEmpty => cases member
  | case2 held nonempty =>
      rw [List.mem_singleton.1 member, List.mem_reverse]
      exact oneLine
  | case3 held rest inductionHypothesis =>
      rcases List.mem_cons.1 member with rfl | later
      · rw [List.mem_reverse]
        exact newline_not_mem_dropReturn oneLine
      · exact inductionHypothesis List.not_mem_nil later
  | case4 held char rest other inductionHypothesis =>
      apply inductionHypothesis _ member
      rw [List.mem_cons, not_or]
      exact ⟨fun same => other same.symm, oneLine⟩

/-! ### Marks -/

theorem afterMark?_append {front : List Char} (noColon : ':' ∉ front) (rest : List Char) :
    afterMark? (front ++ ':' :: ' ' :: rest) = some rest := by
  induction front with
  | nil => rfl
  | cons char front inductionHypothesis =>
      rw [List.mem_cons, not_or] at noColon
      rw [List.cons_append, afterMark?, inductionHypothesis noColon.2]
      exact fun _ same => absurd same.symm noColon.1

theorem suffix_of_afterMark? {line rest : List Char} (found : afterMark? line = some rest) :
    rest <:+ line := by
  fun_induction afterMark? line with
  | case1 => cases found
  | case2 tail =>
      cases found
      exact ⟨[':', ' '], rfl⟩
  | case3 char tail other inductionHypothesis =>
      exact (inductionHypothesis found).trans (List.suffix_cons char tail)

/-- Whatever the texts are read from, none of them has a newline. -/
theorem newline_not_mem_of_mem_instructionTexts {text part : String}
    (member : part ∈ instructionTexts text) : '\n' ∉ part.toList := by
  obtain ⟨line, isLine, isPart⟩ := List.mem_filterMap.1 member
  obtain ⟨rest, found, rfl⟩ := Option.map_eq_some_iff.1 isPart
  have oneLine : '\n' ∉ line :=
    newline_not_mem_of_mem_splitLines List.not_mem_nil (List.mem_of_mem_drop isLine)
  rw [String.toList_ofList]
  exact fun inside => oneLine ((suffix_of_afterMark? found).mem inside)

/-! ### Listings -/

theorem isDigit_of_mem_toString {number : Nat} {char : Char}
    (member : char ∈ (toString number).toList) : char.isDigit = true := by
  rw [Nat.toString_eq_repr, Nat.toList_repr] at member
  exact Nat.isDigit_of_mem_toDigits (by decide) (by decide) member

theorem isDigit_of_mem_number {index : Nat} {char : Char}
    (member : char ∈ (number index).toList) : char.isDigit = true := by
  rw [number, String.toList_append, String.toList_ofList, List.mem_append] at member
  rcases member with padding | digit
  · rw [(List.mem_replicate.1 padding).2]
    rfl
  · exact isDigit_of_mem_toString digit

theorem not_mem_number {char : Char} (noDigit : char.isDigit = false) (index : Nat) :
    char ∉ (number index).toList := by
  intro member
  rw [isDigit_of_mem_number member] at noDigit
  cases noDigit

/-- A listing has its title, an empty line, and then the lines of the code. -/
theorem splitLines_render (code : Code) :
    splitLines [] (render code).toList =
      title.toList :: [] :: splitLines [] (linesFrom 0 code).toList := by
  have layout : (render code).toList =
      title.toList ++ '\n' :: ([] ++ '\n' :: (linesFrom 0 code).toList) := by
    simp [render]
  rw [layout, splitLines_line (by decide), splitLines_line List.not_mem_nil, trimReturn_nil,
    (trimReturn_eq_self_iff _).2 (by decide)]

/-- The line of an instruction whose text has no newline is followed by the other lines, and gives
back the text without the carriage return at its end. -/
theorem splitLines_linesFrom {instruction : Instruction}
    (oneLine : '\n' ∉ instruction.render.toList) (index : Nat) (rest : Code) :
    ∃ line, splitLines [] (linesFrom index (instruction :: rest)).toList =
        line :: splitLines [] (linesFrom (index + 1) rest).toList ∧
      afterMark? line = some (trimReturn instruction.render.toList) := by
  let mark := (number index).toList ++ [':', ' ']
  have layout : (linesFrom index (instruction :: rest)).toList =
      (mark ++ instruction.render.toList) ++ '\n' :: (linesFrom (index + 1) rest).toList := by
    simp [linesFrom, line, mark]
  have wholeOneLine : '\n' ∉ mark ++ instruction.render.toList := by
    simp [mark, oneLine, not_mem_number]
  have keeps : mark.getLast? ≠ some '\r' := by
    simp [mark]
  refine ⟨mark ++ trimReturn instruction.render.toList, ?_, ?_⟩
  · rw [layout, splitLines_line wholeOneLine, trimReturn_append keeps]
  · rw [List.append_assoc]
    exact afterMark?_append (not_mem_number rfl index) _

/-- Texts without newlines are read back up to carriage returns at their ends. -/
theorem instructionTexts_render {code : Code}
    (oneLine : ∀ instruction ∈ code, '\n' ∉ instruction.render.toList) :
    instructionTexts (render code) =
      code.map fun instruction => String.ofList (trimReturn instruction.render.toList) := by
  rw [instructionTexts, splitLines_render, List.drop_succ_cons, List.drop_succ_cons, List.drop_zero]
  -- The lines after the first one are those of the rest, from the next index on.
  generalize 0 = index
  induction code generalizing index with
  | nil => rfl
  | cons instruction rest inductionHypothesis =>
      obtain ⟨line, first, found⟩ :=
        splitLines_linesFrom (oneLine instruction (List.mem_cons_self ..)) index rest
      rw [first, List.filterMap_cons, found, List.map_cons, ← inductionHypothesis]
      · rfl
      · exact fun other member => oneLine other (List.mem_cons_of_mem instruction member)

/-- A text that stands on one line and is not cut at its end. -/
structure LineSafe (text : String) : Prop where
  oneLine : '\n' ∉ text.toList
  noReturn : text.toList.getLast? ≠ some '\r'

theorem LineSafe.ofList_trimReturn {text : String} (safe : LineSafe text) :
    String.ofList (trimReturn text.toList) = text := by
  rw [(trimReturn_eq_self_iff _).2 safe.noReturn, String.ofList_toList]

theorem instructionTexts_render_of_lineSafe {code : Code}
    (safe : ∀ instruction ∈ code, LineSafe instruction.render) :
    instructionTexts (render code) = code.map Instruction.render := by
  rw [instructionTexts_render fun instruction member => (safe instruction member).oneLine]
  apply List.map_congr_left
  intro instruction member
  exact (safe instruction member).ofList_trimReturn

end Listing

/-- The texts of instructions, whatever names they hold, are read back from the listing of code
exactly if none of them has a newline and none ends in a carriage return. -/
theorem instructionTexts_render_iff (code : Code) :
    Listing.instructionTexts (Listing.render code) = code.map Instruction.render ↔
      ∀ instruction ∈ code, Listing.LineSafe instruction.render := by
  constructor
  · intro same instruction member
    -- No text that is read back has a newline, so the lines are those of the instructions.
    have oneLine : ∀ other ∈ code, '\n' ∉ other.render.toList := by
      intro other isOther
      apply Listing.newline_not_mem_of_mem_instructionTexts
      rw [same]
      exact List.mem_map_of_mem isOther
    rw [Listing.instructionTexts_render oneLine, List.map_inj_left] at same
    have uncut := congrArg String.toList (same instruction member)
    rw [String.toList_ofList, Listing.trimReturn_eq_self_iff] at uncut
    exact ⟨oneLine instruction member, uncut⟩
  · exact Listing.instructionTexts_render_of_lineSafe

-- A mark inside a name is not taken for the one after the number, and a carriage return at the end
-- of a text is lost.
example :
    Listing.instructionTexts
        (Listing.render [.goto (.function "a: \rb"), .goto (.function "c\r")]) =
      ["goto func_a: \rb", "goto func_c"] := by
  decide

end MiddleEnd
