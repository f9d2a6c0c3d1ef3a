import AdventureMachine.Number.Precision
import AdventureMachine.Number
import AdventureMachine.Text.Blank

/-! Numbers read from text. A numeral is decimal with an optional point and exponent, or a
hexadecimal, octal or binary digit sequence behind its marker; its value is kept to 53 significant
bits. Option values are plain digit sequences and must be exact. -/
namespace AdventureMachine

/-- What a text says about a number. -/
inductive Numeral where
  | unreadable
  | infinite (negative : Bool)
  | finite (value : Number)
deriving DecidableEq

namespace Numeral

/-- The value of one digit in bases up to sixteen. -/
def digit? (base : Nat) (c : Char) : Option Nat :=
  let value :=
    if '0' ≤ c && c ≤ '9' then c.toNat - '0'.toNat
    else if 'a' ≤ c && c ≤ 'f' then c.toNat - 'a'.toNat + 10
    else if 'A' ≤ c && c ≤ 'F' then c.toNat - 'A'.toNat + 10
    else base
  if value < base then some value else none

/-- The value of a digit sequence; `none` when empty or when a character is no digit. -/
def natural? (base : Nat) (text : List Char) : Option Nat :=
  match text with
  | [] => none
  | _ => text.foldlM (fun total c => (digit? base c).map (total * base + ·)) 0

/-- Whether a character is a decimal digit. -/
def isDigit (c : Char) : Bool := (digit? 10 c).isSome

/-- The exponent range outside which a value is too large or vanishes. -/
private def farExponent : Int := 400

/-- The binary exponent of the last kept bit does not go below this. -/
private def leastExponent : Int := -1074

/-- The binary exponent of the last kept bit does not go above this. -/
private def greatestExponent : Int := 971

/-- The number `mantissa * 2 ^ exponent` in lowest terms. -/
private def ofBinary (negative : Bool) (mantissa : Nat) (exponent : Int) : Number :=
  let signed : Int := if negative then -(mantissa : Int) else mantissa
  if 0 ≤ exponent then .whole (signed * Nat.pow 2 exponent.toNat)
  else
    let places := (-exponent).toNat
    let common := Nat.gcd mantissa (Nat.pow 2 places)
    let shared := common.log2
    if places ≤ shared then .whole (signed / Nat.pow 2 places)
    else .fraction (signed / Nat.pow 2 shared) (places - shared)

/-- The quotient rounded to the nearest natural number, a tie going to the even one. -/
private def nearest (numerator denominator : Nat) : Nat :=
  let quotient := numerator / denominator
  let rest := numerator % denominator
  if denominator < 2 * rest || (denominator == 2 * rest && quotient % 2 == 1) then quotient + 1
  else quotient

/-- The value nearest to `numerator / denominator` with 53 significant bits. -/
private def ofRatio (negative : Bool) (numerator denominator : Nat) : Numeral :=
  if numerator = 0 then .finite 0
  else
    let estimate : Int := (numerator.log2 : Int) - denominator.log2
    -- The quotient lies between `2 ^ (estimate - 1)` and `2 ^ (estimate + 1)`.
    let below := if 0 ≤ estimate then numerator < denominator * Nat.pow 2 estimate.toNat
      else numerator * Nat.pow 2 (-estimate).toNat < denominator
    let leading := if below then estimate - 1 else estimate
    let last := max leastExponent (leading - (Precision.bits - 1))
    let mantissa := if 0 ≤ last then nearest numerator (denominator * Nat.pow 2 last.toNat)
      else nearest (numerator * Nat.pow 2 (-last).toNat) denominator
    if greatestExponent < last || (last == greatestExponent && mantissa == Precision.exactBelow) then
      .infinite negative
    else .finite (ofBinary negative mantissa last)

/-- The value of decimal `mantissa * 10 ^ exponent`. -/
private def ofDecimal (negative : Bool) (mantissa : Nat) (exponent : Int) : Numeral :=
  let size : Int := (Nat.toDigits 10 mantissa).length
  if mantissa = 0 || size + exponent < -farExponent then .finite 0
  else if farExponent < size + exponent then .infinite negative
  else if 0 ≤ exponent then ofRatio negative (mantissa * Nat.pow 10 exponent.toNat) 1
  else ofRatio negative mantissa (Nat.pow 10 (-exponent).toNat)

/-- A signed digit sequence, as it stands in an exponent. -/
private def exponent? (text : List Char) : Option Int :=
  match text with
  | '+' :: rest => (natural? 10 rest).map Int.ofNat
  | '-' :: rest => (natural? 10 rest).map fun value => -(value : Int)
  | rest => (natural? 10 rest).map Int.ofNat

/-- An unsigned decimal numeral with optional point and exponent. -/
private def decimal? (negative : Bool) (text : List Char) : Numeral :=
  if text = "Infinity".toList then .infinite negative
  else
    let front := text.takeWhile isDigit
    let afterFront := text.dropWhile isDigit
    let (back, rest) := match afterFront with
      | '.' :: more => (more.takeWhile isDigit, more.dropWhile isDigit)
      | more => ([], more)
    match natural? 10 (front ++ back) with
    | none => .unreadable
    | some mantissa =>
      match rest with
      | [] => ofDecimal negative mantissa (-(back.length : Int))
      | mark :: written =>
        if mark == 'e' || mark == 'E' then
          match exponent? written with
          | none => .unreadable
          | some exponent => ofDecimal negative mantissa (exponent - back.length)
        else .unreadable

/-- A digit sequence in `base` behind its marker. -/
private def marked (base : Nat) (text : List Char) : Numeral :=
  match natural? base text with
  | none => .unreadable
  | some value => ofRatio false value 1

/-- Reads a numeral; blanks around it do not count and an empty text is zero. -/
def read (text : String) : Numeral :=
  match Text.trim text.toList with
  | [] => .finite 0
  | '0' :: 'x' :: rest | '0' :: 'X' :: rest => marked 16 rest
  | '0' :: 'o' :: rest | '0' :: 'O' :: rest => marked 8 rest
  | '0' :: 'b' :: rest | '0' :: 'B' :: rest => marked 2 rest
  | '+' :: rest => decimal? false rest
  | '-' :: rest => decimal? true rest
  | rest => decimal? false rest

end Numeral

/-- Reads an option value: decimal digits, or hexadecimal ones behind `0x`, and nothing that
would not be exact. -/
def readCount? (text : String) : Option Nat :=
  let value := match text.toList with
    | '0' :: 'x' :: rest | '0' :: 'X' :: rest => Numeral.natural? 16 rest
    | written => Numeral.natural? 10 written
  value.filter (· < Precision.exactBelow)

end AdventureMachine
