import AdventureMachine.Log
import AdventureMachine.Number.Text

/-! Everything the machine, its transports and its codecs can report, and the walks that drive it.
Halting is not an error: a halt is one of the ways a step ends. -/
namespace AdventureMachine

/-- A reported failure, by its cause. -/
inductive Error where
  /-- An operand that is neither a literal nor a register. -/
  | invalidLoad (operand : Number)
  /-- A destination that is not a register. -/
  | invalidStore (destination : Number)
  | emptyStack
  | unknownOpcode (opcode : UInt16)
  /-- A memory access outside the address space. -/
  | invalidAddress (address : Number)
  | divisionByZero (dividend : UInt16)
  | transport (message cause : String)
  | oversizedImage (byteLength : Nat)
  | shortSnapshot (byteLength headerSize : Nat)
  | snapshotCell (index value offset : Nat)
  | snapshotRegister (index value offset : Nat)
  | snapshotCounter (value offset : Nat)
  | snapshotStack (index value offset : Nat)
  | unknownSection (line : String)
  | malformedEntry (line : String)
  | noVaultCell (description : String)
  /-- A walk on forks that went deeper than its bound, which takes a map without end. -/
  | endlessWalk
deriving DecidableEq

namespace Error

/-- What is told to the user. -/
def message : Error → String
  | invalidLoad operand => "Tried to load invalid address " ++ operand.hex
  | invalidStore destination => "Tried to store at invalid address " ++ destination.hex
  | emptyStack => "Tried to pop from an empty stack"
  | unknownOpcode opcode => "Unknown opcode " ++ decimal opcode.toNat
  | invalidAddress address => "Memory access out of range at " ++ address.hex
  | divisionByZero dividend => "Remainder of " ++ decimal dividend.toNat ++ " by zero"
  | transport message _ => message
  | oversizedImage byteLength =>
    "Program image of " ++ decimal byteLength ++ " bytes does not fit in memory"
  | shortSnapshot byteLength headerSize =>
    "Snapshot of " ++ decimal byteLength ++ " bytes is shorter than the " ++
      decimal headerSize ++ "-byte header"
  | snapshotCell index value _ => "Memory cell " ++ decimal index ++ " holds " ++ decimal value
  | snapshotRegister index value _ => "Register " ++ decimal index ++ " holds " ++ decimal value
  | snapshotCounter value _ => "Program counter " ++ decimal value ++ " is out of range"
  | snapshotStack index value _ => "Stack entry " ++ decimal index ++ " holds " ++ decimal value
  | unknownSection _ => "Unknown section header"
  | malformedEntry _ => "Malformed list entry"
  | noVaultCell _ => "No vault cell in description"
  | endlessWalk => "Walk went deeper than its bound"

/-- The class under which a failure is reported. -/
def kind : Error → String
  | invalidLoad _ => "InvalidLoadError"
  | invalidStore _ => "InvalidStoreError"
  | emptyStack => "PopFromEmptyStackError"
  | unknownOpcode _ => "UnknownOpcodeError"
  | invalidAddress _ => "InvalidAddressError"
  | divisionByZero _ => "DivisionByZeroError"
  | transport .. => "TransportError"
  | oversizedImage _ => "ProgramImageError"
  | shortSnapshot .. | snapshotCell .. | snapshotRegister .. | snapshotCounter .. |
    snapshotStack .. => "SnapshotError"
  | unknownSection _ | malformedEntry _ | noVaultCell _ => "RoomParseError"
  | endlessWalk => "EndlessWalkError"

/-- The short name that programs can switch on. -/
def code : Error → String
  | invalidLoad _ => "invalid_load"
  | invalidStore _ => "invalid_store"
  | emptyStack => "pop_from_empty_stack"
  | unknownOpcode _ => "unknown_opcode"
  | invalidAddress _ => "invalid_address"
  | divisionByZero _ => "division_by_zero"
  | transport .. => "transport"
  | oversizedImage _ => "program_image"
  | shortSnapshot .. | snapshotCell .. | snapshotRegister .. | snapshotCounter .. |
    snapshotStack .. => "snapshot"
  | unknownSection _ | malformedEntry _ | noVaultCell _ => "room_parse"
  | endlessWalk => "endless_walk"

/-- The values that go with a failure, where it has any. -/
def context? : Error → Option (List (String × Log.Value))
  | invalidLoad operand => some [("operand", .number operand)]
  | invalidStore destination => some [("destination", .number destination)]
  | emptyStack => none
  | unknownOpcode opcode => some [("opcode", .count opcode.toNat)]
  | invalidAddress address => some [("address", .number address)]
  | divisionByZero dividend => some [("dividend", .count dividend.toNat)]
  | transport _ cause => some [("cause", .text cause)]
  | oversizedImage byteLength => some [("byteLength", .count byteLength)]
  | shortSnapshot byteLength _ => some [("offset", .count byteLength)]
  | snapshotCell _ _ offset | snapshotRegister _ _ offset | snapshotCounter _ offset |
    snapshotStack _ _ offset => some [("offset", .count offset)]
  | unknownSection line | malformedEntry line | noVaultCell line => some [("line", .text line)]
  | endlessWalk => none

/-- A failure as an argument of a log record. -/
def toLog (error : Error) : Log.Value :=
  .error error.kind error.message (some error.code) error.context?

end Error

end AdventureMachine
