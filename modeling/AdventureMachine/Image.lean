import AdventureMachine.Bytes
import AdventureMachine.Machine

/-! Program images: sixteen-bit little-endian words loaded from address zero. An image is at most
as long as memory; a trailing odd byte is dropped with a warning. -/
namespace AdventureMachine

namespace Image

/-- Bytes of one word. -/
abbrev wordSize : Nat := 2

/-- The longest image. -/
abbrev maxBytes : Nat := memorySize * wordSize

/-- The bytes of a word sequence. -/
def encode (words : List UInt16) : Bytes :=
  words.flatMap fun word => Bytes.ofNat wordSize word.toNat

/-- The words of an image. -/
def decode (image : Bytes) : Except Error (List UInt16) :=
  if maxBytes < image.length then .error (.oversizedImage image.length)
  else .ok ((Bytes.words wordSize image).map .ofNat)

/-- What is worth a warning about an image. -/
def remarks (image : Bytes) : List Log.Record :=
  if image.length ≤ maxBytes && image.length % wordSize != 0 then
    [.ofFields .warn "Ignoring trailing odd byte in program image"
      [("byteLength", .count image.length)]]
  else []

/-- Decodes an image and logs the warnings about it. -/
def loggedDecode (image : Bytes) : Logged (Except Error (List UInt16)) :=
  ⟨decode image, remarks image⟩

end Image

namespace Machine

/-- A machine with an image loaded at address zero. -/
def ofImage {σ τ : Type} (image : Bytes) (source : σ) (sink : τ) (tracing : Bool) :
    Except Error (Machine σ τ) :=
  (Image.decode image).map fun words =>
    .ofState (.initial (.ofWords words.toArray)) source sink tracing

/-- Loads an image and logs the warnings about it. -/
def loggedOfImage {σ τ : Type} (image : Bytes) (source : σ) (sink : τ) (tracing : Bool) :
    Logged (Except Error (Machine σ τ)) :=
  ⟨ofImage image source sink tracing, Image.remarks image⟩

end Machine

end AdventureMachine
