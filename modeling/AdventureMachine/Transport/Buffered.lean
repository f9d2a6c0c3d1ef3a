import AdventureMachine.ByteBuffer
import AdventureMachine.Text.Narrow
import AdventureMachine.Transport

/-! Endpoints in memory: queued input that can be extended at any time, and captured output with a
cursor for readers that take it piece by piece. -/
namespace AdventureMachine

/-- A byte queue read front to back. -/
structure BufferedInput where
  buffer : ByteBuffer
  cursor : Int

namespace BufferedInput

/-- Input that holds `bytes`, of which those before `position` count as read. -/
def ofBytes (bytes : Bytes) (position : Int) : BufferedInput :=
  ⟨.ofList bytes, min position bytes.length⟩

/-- Input with nothing in it. -/
def empty : BufferedInput := ofBytes [] 0

/-- Input that holds the bytes of a text. -/
def ofText (text : String) : BufferedInput := ofBytes (Text.encode text) 0

/-- Bytes read so far. -/
def position (input : BufferedInput) : Int := input.cursor

/-- Bytes added but not yet read. -/
def pending (input : BufferedInput) : Int := input.buffer.length - input.cursor

/-- Adds bytes at the end. -/
def append (input : BufferedInput) (bytes : Bytes) : BufferedInput :=
  { input with buffer := input.buffer.append bytes }

/-- The next byte, if there is one, and the input after it. -/
def read (input : BufferedInput) : Option UInt8 × BufferedInput :=
  match input.buffer.at? input.cursor with
  | some byte => (some byte, { input with cursor := input.cursor + 1 })
  | none => (none, input)

/-- Independent input with the same bytes and position. -/
def clone (input : BufferedInput) : BufferedInput := ofBytes input.buffer.bytes input.cursor

private theorem pending_of_at? {input : BufferedInput} {byte : UInt8}
    (found : input.buffer.at? input.cursor = some byte) :
    0 < (input.buffer.length - input.cursor : Int).toNat := by
  unfold ByteBuffer.at? at found
  split at found
  · rename_i inside
    simp only [ByteBuffer.length]
    omega
  · cases found

instance : ByteSource BufferedInput where
  readByte input := let (byte, rest) := input.read; (.ok byte, rest)
  remaining input := (input.buffer.length - input.cursor : Int).toNat
  remaining_lt := by
    intro input byte answer
    simp only [read] at answer ⊢
    split at answer
    · rename_i found
      have := pending_of_at? found
      simp only
      omega
    · cases answer

end BufferedInput

/-- Captured output with a read cursor. -/
structure BufferedOutput where
  buffer : ByteBuffer
  cursor : Int

namespace BufferedOutput

/-- Output that holds `bytes`, of which those before `cursor` count as taken. -/
def ofBytes (bytes : Bytes) (cursor : Int) : BufferedOutput :=
  ⟨.ofList bytes, min cursor bytes.length⟩

/-- Output with nothing in it. -/
def empty : BufferedOutput := ofBytes [] 0

/-- Bytes written so far. -/
def length (output : BufferedOutput) : Nat := output.buffer.length

/-- Adds one byte at the end. -/
def write (output : BufferedOutput) (byte : UInt8) : BufferedOutput :=
  { output with buffer := output.buffer.push byte }

/-- Everything written. -/
def bytes (output : BufferedOutput) : Bytes := output.buffer.bytes

/-- Everything written, as text. -/
def text (output : BufferedOutput) : String := Text.decode output.bytes

/-- The bytes behind the cursor. -/
def unreadBytes (output : BufferedOutput) : Bytes := output.buffer.suffixFrom output.cursor

/-- The text behind the cursor. -/
def unread (output : BufferedOutput) : String := Text.decode output.unreadBytes

/-- Moves the cursor by `count` bytes, at most to the end. -/
def consume (output : BufferedOutput) (count : Int) : BufferedOutput :=
  { output with cursor := min output.buffer.length (output.cursor + count) }

/-- Takes the text behind the cursor, which moves to the end. -/
def readNew (output : BufferedOutput) : String × BufferedOutput :=
  (output.unread, { output with cursor := output.buffer.length })

/-- Independent output with the same bytes and cursor. -/
def clone (output : BufferedOutput) : BufferedOutput := ofBytes output.bytes output.cursor

instance : ByteSink BufferedOutput where
  writeByte output byte := (.ok (), output.write byte)

end BufferedOutput

/-- A sink that drops everything and counts what it was given. -/
structure DiscardOutput where
  byteCount : Nat

instance : ByteSink DiscardOutput where
  writeByte output _ := (.ok (), ⟨output.byteCount + 1⟩)

end AdventureMachine
