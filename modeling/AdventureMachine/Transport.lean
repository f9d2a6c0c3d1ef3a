import AdventureMachine.Error
import AdventureMachine.Bytes

/-! Byte endpoints of a machine. A source holds finitely many bytes, so skipping some of them ends;
a sink takes one byte at a time. Both may report a failure and are usable afterwards. -/
namespace AdventureMachine

/-- A readable endpoint. The answer `none` means that nothing is left for now. -/
class ByteSource (σ : Type) where
  readByte : σ → Except Error (Option UInt8) × σ
  /-- A bound on the bytes that can still be read. -/
  remaining : σ → Nat
  remaining_lt : ∀ source byte, (readByte source).1 = .ok (some byte) →
    remaining (readByte source).2 < remaining source

/-- A writable endpoint. -/
class ByteSink (τ : Type) where
  writeByte : τ → UInt8 → Except Error Unit × τ

namespace ByteSource

/-- The byte that a guest never sees. -/
def carriageReturn : UInt8 := 13

/-- Reads the next byte that is not a carriage return. -/
def readVisible {σ : Type} [ByteSource σ] (source : σ) : Except Error (Option UInt8) × σ :=
  match answer : readByte source with
  | (.ok (some byte), rest) =>
    if byte = carriageReturn then
      have : remaining rest < remaining source := by
        simpa [answer] using remaining_lt source byte (by rw [answer])
      readVisible rest
    else (.ok (some byte), rest)
  | other => other
termination_by remaining source

end ByteSource

end AdventureMachine
