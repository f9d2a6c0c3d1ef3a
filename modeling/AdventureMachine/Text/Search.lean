/-! Looking for one text inside another, and cutting text into lines, on lists of characters. -/
namespace AdventureMachine.Text

/-- The text before the first occurrence of `part` and the text from that occurrence on. -/
def splitAt? (part text : List Char) : Option (List Char × List Char) :=
  go [] text
where
  /-- Goes on behind the characters passed so far, latest first. -/
  go (passed : List Char) : List Char → Option (List Char × List Char)
    | [] => if part.isEmpty then some (passed.reverse, []) else none
    | c :: rest =>
      if part.isPrefixOf (c :: rest) then some (passed.reverse, c :: rest)
      else go (c :: passed) rest

/-- Whether `part` occurs in `text`. -/
def occurs (part text : List Char) : Bool := (splitAt? part text).isSome

/-- The pieces of a text between line feeds; there is always one. -/
def lines (text : List Char) : List (List Char) :=
  go [] text
where
  /-- Goes on with the line whose characters so far are given, latest first. -/
  go (line : List Char) : List Char → List (List Char)
    | [] => [line.reverse]
    | c :: rest => if c = '\n' then line.reverse :: go [] rest else go (c :: line) rest

/-- The pieces joined by line feeds. -/
def unlines : List (List Char) → List Char
  | [] => []
  | [line] => line
  | line :: rest => line ++ '\n' :: unlines rest

/-- A text without the line feeds at its end. -/
def stripNewlines (text : List Char) : List Char :=
  (text.reverse.dropWhile (· == '\n')).reverse

end AdventureMachine.Text
