import AdventureMachine.Number
import AdventureMachine.Number.Precision

/-! Written forms of numbers: decimal text, hexadecimal text, and fixed-width decimal. A binary
fraction has a finite expansion in both bases, so every number is written exactly. -/
namespace AdventureMachine

namespace Number

/-- Digits of `value` in `base`, lower case. -/
def digits (base value : Nat) : List Char := Nat.toDigits base value

/-- Digits of `value`, with zeros in front up to `width`. -/
def padded (base width value : Nat) : List Char :=
  let written := digits base value
  List.replicate (width - written.length) '0' ++ written

/-- Digits from which the power of ten is written apart. -/
def longest : Nat := 21

/-- Decimal digits of a size, as few as tell it from its neighbours. -/
def decimalDigits (size : Nat) : List Char :=
  let written := digits 10 (Precision.shortestNat size)
  if written.length ≤ longest then written
  else
    let power := ['e', '+'] ++ digits 10 (written.length - 1)
    match (written.reverse.dropWhile (· == '0')).reverse with
    | [] => power
    | [first] => first :: power
    | first :: rest => first :: '.' :: (rest ++ power)

/-- A number in `base`, where `whole` writes sizes without a fraction and `scale` digits behind the
point hold a binary fraction. -/
private def written (base : Nat) (whole : Nat → List Char) (scale : Nat → Nat) (number : Number) :
    List Char :=
  match number with
  | .whole value => if value < 0 then '-' :: whole value.natAbs else whole value.natAbs
  | .fraction numerator places =>
    let size := numerator.natAbs
    let behind := scale places
    let unit := denominator places
    let body := digits base (size / unit) ++
      '.' :: padded base behind (size % unit * Nat.pow base behind / unit)
    if numerator < 0 then '-' :: body else body

/-- Decimal text. -/
def decimal (number : Number) : String := .ofList (number.written 10 decimalDigits id)

/-- Hexadecimal text behind `0x`; a sign stands after the marker. -/
def hex (number : Number) : String :=
  "0x" ++ String.ofList (number.written 16 (digits 16) fun places => (places + 3) / 4)

end Number

/-- Decimal text of a count. -/
def decimal (value : Nat) : String := .ofList (Number.digits 10 value)

end AdventureMachine
