import AdventureMachine.Instruction

/-! Listings of memory words. Each line shows one instruction; a word that starts none, or whose
operands run past the end, is shown as data. -/
namespace AdventureMachine

namespace Listing

/-- One line: where it starts, what it shows, and how many words it covers. -/
structure Line where
  address : Number
  text : String
  length : Nat
deriving DecidableEq

/-- A word shown as data. -/
def dataText (word : UInt16) : String := ".word " ++ decimal word.toNat

/-- The line at an address. -/
def line (words : Array UInt16) (address : Number) : Line :=
  match address.index? words.size with
  | none => ⟨address, ".word undefined", 1⟩
  | some index =>
    let word := words[index]
    match Opcode.ofCode? word.toNat with
    | none => ⟨address, dataText word, 1⟩
    | some opcode =>
      if index.val + 1 + opcode.arity ≤ words.size then
        let instruction := Instruction.decode opcode fun position =>
          words.getD (index.val + 1 + position) 0
        ⟨address, instruction.text, 1 + opcode.arity⟩
      else ⟨address, dataText word, 1⟩

/-- At most `count` consecutive lines from an address on, up to the end of the words. -/
def lines (words : Array UInt16) (address : Number) : (count : Nat) → List Line
  | 0 => []
  | count + 1 =>
    if address.below words.size then
      let first := line words address
      first :: lines words (address.shift first.length) count
    else []

/-- A line with its address, padded to five digits. -/
def Line.render (line : Line) : String :=
  let address := line.address.decimal
  String.ofList (List.replicate (5 - address.length) '0') ++ address ++ ": " ++ line.text

/-- All lines, one below the other. -/
def render (lines : List Line) : String := "\n".intercalate (lines.map Line.render)

end Listing

end AdventureMachine
