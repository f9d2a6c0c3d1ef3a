/-! Text as a sequence of 16-bit units. A character above U+FFFF takes two units, its surrogate
pair; every other character is one unit. Guest programs print and match text unit by unit. -/
namespace AdventureMachine.Text

/-- The units of one character. -/
def charUnits (c : Char) : List UInt16 :=
  if c.toNat < 0x10000 then [.ofNat c.toNat]
  else
    let rest := c.toNat - 0x10000
    [.ofNat (0xd800 + rest / 0x400), .ofNat (0xdc00 + rest % 0x400)]

/-- The units of a text. -/
def units (text : String) : List UInt16 := text.toList.flatMap charUnits

/-- The character of a unit that stands alone; half a pair has none and is shown as U+FFFD. -/
private def loneChar (unit : UInt16) : Char :=
  if 0xd800 ≤ unit && unit ≤ 0xdfff then '\ufffd' else Char.ofNat unit.toNat

/-- The characters that a unit sequence spells. -/
def charsOfUnits : List UInt16 → List Char
  | [] => []
  | [unit] => [loneChar unit]
  | first :: second :: rest =>
    if 0xd800 ≤ first && first ≤ 0xdbff && 0xdc00 ≤ second && second ≤ 0xdfff then
      Char.ofNat (0x10000 + (first.toNat - 0xd800) * 0x400 + (second.toNat - 0xdc00)) ::
        charsOfUnits rest
    else loneChar first :: charsOfUnits (second :: rest)

/-- The text that a unit sequence spells. -/
def ofUnits (units : List UInt16) : String := .ofList (charsOfUnits units)

@[simp]
theorem units_append (front back : String) : units (front ++ back) = units front ++ units back := by
  simp [units]

end AdventureMachine.Text
