import AdventureMachine.Transport.Buffered
import AdventureMachine.Transport.Terminal

/-! Endpoints that fail for good after a while, and channels: an endpoint of any kind, for machines
whose transports are picked at run time. -/
namespace AdventureMachine

/-- Input that fails on every read once its bytes are used up. -/
structure BrokenInput where
  bytes : Bytes
  failure : Error

instance : ByteSource BrokenInput where
  readByte input :=
    match input.bytes with
    | [] => (.error input.failure, input)
    | byte :: rest => (.ok (some byte), { input with bytes := rest })
  remaining input := input.bytes.length
  remaining_lt := by
    intro input byte answer
    cases held : input.bytes with
    | nil => simp [held] at answer
    | cons first rest => simp

/-- Output that fails on every write once its room is used up. -/
structure BrokenOutput where
  room : Nat
  failure : Error

instance : ByteSink BrokenOutput where
  writeByte output _ :=
    match output.room with
    | 0 => (.error output.failure, output)
    | room + 1 => (.ok (), { output with room := room })

/-- Input of any kind. -/
inductive InputChannel where
  | buffered (input : BufferedInput)
  | terminal (input : TerminalInput)
  | broken (input : BrokenInput)

instance : ByteSource InputChannel where
  readByte
    | .buffered input =>
      let (answer, rest) := ByteSource.readByte input
      (answer, .buffered rest)
    | .terminal input =>
      let (answer, rest) := ByteSource.readByte input
      (answer, .terminal rest)
    | .broken input =>
      let (answer, rest) := ByteSource.readByte input
      (answer, .broken rest)
  remaining
    | .buffered input => ByteSource.remaining input
    | .terminal input => ByteSource.remaining input
    | .broken input => ByteSource.remaining input
  remaining_lt
    | .buffered input, byte, answer => ByteSource.remaining_lt input byte answer
    | .terminal input, byte, answer => ByteSource.remaining_lt input byte answer
    | .broken input, byte, answer => ByteSource.remaining_lt input byte answer

/-- Output of any kind. -/
inductive OutputChannel where
  | buffered (output : BufferedOutput)
  | terminal (output : TerminalOutput)
  | broken (output : BrokenOutput)
  | discard (output : DiscardOutput)

instance : ByteSink OutputChannel where
  writeByte channel byte :=
    match channel with
    | .buffered output =>
      let (answer, rest) := ByteSink.writeByte output byte
      (answer, .buffered rest)
    | .terminal output =>
      let (answer, rest) := ByteSink.writeByte output byte
      (answer, .terminal rest)
    | .broken output =>
      let (answer, rest) := ByteSink.writeByte output byte
      (answer, .broken rest)
    | .discard output =>
      let (answer, rest) := ByteSink.writeByte output byte
      (answer, .discard rest)

end AdventureMachine
