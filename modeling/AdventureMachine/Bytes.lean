/-! Byte strings and little-endian words. Images and snapshots are byte strings; each of their
fields is a fixed-width word with its low byte first. -/
namespace AdventureMachine

/-- A byte string: the content of a file, an image, a snapshot or an encoded text. -/
abbrev Bytes := List UInt8

namespace Bytes

/-- The low `width` bytes of a value, low byte first. -/
def ofNat (width value : Nat) : Bytes :=
  match width with
  | 0 => []
  | width + 1 => .ofNat value :: ofNat width (value / 256)

/-- How many values `width` bytes can hold. -/
def capacity (width : Nat) : Nat := Nat.pow 256 width

/-- The value of a byte string read with its low byte first. -/
def toNat : Bytes → Nat
  | [] => 0
  | byte :: rest => byte.toNat + 256 * toNat rest

/-- The values of consecutive words of `width` bytes; a shorter rest is dropped. -/
def words (width : Nat) (bytes : Bytes) : List Nat :=
  let held := bytes.toArray
  (List.range (bytes.length / width)).map fun index =>
    toNat (held.extract (index * width) (index * width + width)).toList

@[simp]
theorem length_ofNat (width value : Nat) : (ofNat width value).length = width := by
  induction width generalizing value with
  | zero => rfl
  | succ width ih => simp [ofNat, ih]

theorem toNat_ofNat (width value : Nat) (bound : value < capacity width) :
    toNat (ofNat width value) = value := by
  induction width generalizing value with
  | zero => have : value < 1 := bound; simp only [ofNat, toNat]; omega
  | succ width ih =>
    have wider : value < capacity width * 256 := bound
    have smaller : value / 256 < capacity width := by omega
    simp only [ofNat, toNat, ih _ smaller, UInt8.toNat_ofNat']
    omega

end Bytes

end AdventureMachine
