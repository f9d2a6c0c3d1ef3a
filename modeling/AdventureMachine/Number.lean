/-! Exact numbers handed to the machine from outside. Guest words are always whole; a caller may
also name an address, a stack entry or a limit by a binary fraction, which no cell answers to. -/
namespace AdventureMachine

/-- A whole number, or the binary fraction `numerator / 2 ^ places` that is not whole. -/
inductive Number where
  | whole (value : Int)
  | fraction (numerator : Int) (places : Nat)
deriving DecidableEq, Inhabited

namespace Number

/-- The number of a count or an address. -/
@[match_pattern, reducible]
def ofNat (value : Nat) : Number := .whole (.ofNat value)

/-- The number a guest word stands for. -/
def ofWord (word : UInt16) : Number := .ofNat word.toNat

instance (n : Nat) : OfNat Number n := ⟨.ofNat n⟩

/-- What the numerator of a binary fraction is divided by, two to the number of its places. -/
def denominator (places : Nat) : Nat := Nat.pow 2 places

/-- The nearest whole number on the side of zero. -/
def truncate : Number → Int
  | .whole value => value
  | .fraction numerator places => numerator.tdiv (denominator places)

/-- The least whole number that is not below. -/
def ceiling : Number → Int
  | .whole value => value
  | .fraction numerator places => -((-numerator).fdiv (denominator places))

/-- How many counted steps stay strictly below a limit. -/
def budget (limit : Number) : Nat := limit.ceiling.toNat

/-- The number `distance` units further on. -/
def shift (number : Number) (distance : Int) : Number :=
  match number with
  | .whole value => .whole (value + distance)
  | .fraction numerator places => .fraction (numerator + distance * denominator places) places

/-- Whether the number lies in the closed range from `low` to `high`. -/
def within (number : Number) (low high : Int) : Bool :=
  match number with
  | .whole value => low ≤ value && value ≤ high
  | .fraction numerator places =>
    low * denominator places ≤ numerator && numerator ≤ high * denominator places

/-- Whether the number lies strictly below `bound`. -/
def below (number : Number) (bound : Int) : Bool :=
  match number with
  | .whole value => value < bound
  | .fraction numerator places => numerator < bound * denominator places

/-- The index into `size` cells that the number names, if it is one. -/
def index? (number : Number) (size : Nat) : Option (Fin size) :=
  match number with
  | .whole (.ofNat value) => if bound : value < size then some ⟨value, bound⟩ else none
  | _ => none

/-- The low eight bits of the whole part. -/
def toByte (number : Number) : UInt8 := .ofInt number.truncate

/-- The low sixteen bits of the whole part. -/
def toWord (number : Number) : UInt16 := .ofInt number.truncate

theorem index?_ofNat {value size : Nat} (bound : value < size) :
    (ofNat value).index? size = some ⟨value, bound⟩ := by
  simp [index?, bound]

theorem index?_ofNat_of_le {value size : Nat} (beyond : size ≤ value) :
    (ofNat value).index? size = none := by
  simp [index?, Nat.not_lt.mpr beyond]

theorem eq_ofNat_of_index? {number : Number} {size : Nat} {index : Fin size}
    (found : number.index? size = some index) : number = ofNat index.val := by
  unfold index? at found
  split at found
  · split at found
    · cases found; rfl
    · cases found
  · cases found

end Number

end AdventureMachine
