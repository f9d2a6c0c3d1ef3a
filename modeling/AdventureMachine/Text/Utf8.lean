import AdventureMachine.Bytes

/-! Text files in UTF-8. Every byte string reads as some text: a sequence that is cut short or out
of range becomes one U+FFFD for its longest well-begun part. -/
namespace AdventureMachine.Text

/-- The form of a sequence by its first byte: how many bytes follow, the range of the second byte,
and the payload of the first. -/
private def lead? (byte : UInt8) : Option (Nat × UInt8 × UInt8 × Nat) :=
  if 0xc2 ≤ byte && byte ≤ 0xdf then some (1, 0x80, 0xbf, byte.toNat - 0xc0)
  else if byte = 0xe0 then some (2, 0xa0, 0xbf, 0)
  else if byte = 0xed then some (2, 0x80, 0x9f, 0xd)
  else if 0xe1 ≤ byte && byte ≤ 0xef then some (2, 0x80, 0xbf, byte.toNat - 0xe0)
  else if byte = 0xf0 then some (3, 0x90, 0xbf, 0)
  else if byte = 0xf4 then some (3, 0x80, 0x8f, 4)
  else if 0xf1 ≤ byte && byte ≤ 0xf3 then some (3, 0x80, 0xbf, byte.toNat - 0xf0)
  else none

/-- A sequence under way: bytes still missing, the range of the next one, the value so far. -/
private structure Pending where
  missing : Nat
  low : UInt8
  high : UInt8
  value : Nat

/-- Reads one byte outside a sequence. -/
private def start (byte : UInt8) : List Char × Option Pending :=
  if byte < 0x80 then ([Char.ofNat byte.toNat], none)
  else
    match lead? byte with
    | none => (['\ufffd'], none)
    | some (missing, low, high, value) => ([], some ⟨missing, low, high, value⟩)

/-- Reads one byte; a byte that does not continue the sequence under way ends it and is read
afresh. -/
private def advance (pending : Option Pending) (byte : UInt8) : List Char × Option Pending :=
  match pending with
  | none => start byte
  | some sequence =>
    if sequence.low ≤ byte && byte ≤ sequence.high then
      let value := sequence.value * 64 + (byte.toNat - 0x80)
      if sequence.missing ≤ 1 then ([Char.ofNat value], none)
      else ([], some ⟨sequence.missing - 1, 0x80, 0xbf, value⟩)
    else
      let (chars, next) := start byte
      ('\ufffd' :: chars, next)

/-- Reads one byte after characters that are kept latest first. -/
private def collect (read : List Char × Option Pending) (byte : UInt8) :
    List Char × Option Pending :=
  let (chars, next) := advance read.2 byte
  (chars.reverse ++ read.1, next)

/-- The text of a UTF-8 byte string; a byte order mark is kept. -/
def ofUtf8 (bytes : Bytes) : String :=
  let (chars, pending) := bytes.foldl collect ([], none)
  let chars := if pending.isSome then '\ufffd' :: chars else chars
  .ofList chars.reverse

/-- The UTF-8 bytes of a text. -/
def toUtf8 (text : String) : Bytes := text.toList.flatMap String.utf8EncodeChar

end AdventureMachine.Text
