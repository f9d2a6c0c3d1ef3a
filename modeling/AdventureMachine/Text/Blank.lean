/-! Blank characters: those trimmed from both ends of a text, and those that end a line. -/
namespace AdventureMachine.Text

/-- Characters that end a line: line feed, carriage return, line and paragraph separator. -/
def isLineEnd (c : Char) : Bool :=
  c == '\n' || c == '\r' || c == '\u2028' || c == '\u2029'

/-- Tabulators, spaces of every width, the byte order mark and the line ends. -/
def isBlank (c : Char) : Bool :=
  isLineEnd c || c == '\t' || c == '\x0b' || c == '\x0c' || c == ' ' || c == '\u00a0' ||
    c == '\u1680' || ('\u2000' ≤ c && c ≤ '\u200a') || c == '\u202f' || c == '\u205f' ||
    c == '\u3000' || c == '\ufeff'

/-- The characters before the blank ones at the end. -/
def trimEnd (text : List Char) : List Char :=
  (text.reverse.dropWhile isBlank).reverse

/-- The characters between the blank ones at both ends. -/
def trim (text : List Char) : List Char := trimEnd (text.dropWhile isBlank)

end AdventureMachine.Text
