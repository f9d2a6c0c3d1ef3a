/-! Whole numbers kept to 53 significant bits. Sums and products of large values are rounded to
the nearest number that has no more bits, a tie going to the even neighbour. -/
namespace AdventureMachine.Precision

/-- Significant bits that survive an operation. -/
def bits : Nat := 53

/-- The largest size below which every whole number is kept as it is. -/
def exactBelow : Nat := Nat.pow 2 bits

/-- The nearest natural number with at most `bits` significant bits. -/
def roundNat (value : Nat) : Nat :=
  if value < exactBelow then value
  else
    let unit := Nat.pow 2 (value.log2 + 1 - bits)
    let quotient := value / unit
    let rest := value % unit
    let raised := unit < 2 * rest || (unit == 2 * rest && quotient % 2 == 1)
    (if raised then quotient + 1 else quotient) * unit

/-- The nearest whole number with at most `bits` significant bits. -/
def round (value : Int) : Int :=
  if value < 0 then -(roundNat value.natAbs : Int) else roundNat value.natAbs

/-- The nearest of the two multiples of `unit` around `value` that is kept as `value`. -/
def neighbour? (value unit : Nat) : Option Nat :=
  let low := value / unit * unit
  let high := low + unit
  let near := if value - low ≤ high - value then [low, high] else [high, low]
  near.find? fun candidate => roundNat candidate == value

/-- The multiple of the greatest power of ten, at most `10 ^ places`, that is kept as `value`. -/
def shortestWithin (value : Nat) : (places : Nat) → Nat
  | 0 => value
  | places + 1 => (neighbour? value (Nat.pow 10 (places + 1))).getD (shortestWithin value places)

/-- The number with the fewest digits in front of its zeros among those that are kept as `value`. -/
def shortestNat (value : Nat) : Nat :=
  if value < exactBelow then value else shortestWithin value (value.log2 / 3)

/-- The whole number with the fewest digits in front of its zeros that is kept as `value`. -/
def shortest (value : Int) : Int :=
  if value < 0 then -(shortestNat value.natAbs : Int) else shortestNat value.natAbs

/-- The size from which on a number is out of range. -/
@[irreducible]
def range : Nat := Nat.pow 2 1024

/-- What an operation on kept numbers gives. -/
inductive Outcome where
  | finite (value : Int)
  /-- A number out of range, on one side of zero. -/
  | infinite (negative : Bool)
  /-- No number at all, as the difference of two that are out of range. -/
  | undefined
deriving DecidableEq

namespace Outcome

/-- The outcome of an operation whose exact result is given. -/
def ofExact (value : Int) : Outcome :=
  if (round value).natAbs < range then .finite (round value) else .infinite (value < 0)

instance : Add Outcome where
  add
    | .finite left, .finite right => ofExact (left + right)
    | .finite _, .infinite negative => .infinite negative
    | .infinite negative, .finite _ => .infinite negative
    | .infinite left, .infinite right => if left = right then .infinite left else .undefined
    | _, _ => .undefined

instance : Neg Outcome where
  neg
    | .finite value => .finite (-value)
    | .infinite negative => .infinite !negative
    | .undefined => .undefined

instance : Sub Outcome where
  sub left right := left + -right

instance : Mul Outcome where
  mul
    | .finite left, .finite right => ofExact (left * right)
    | .finite value, .infinite negative | .infinite negative, .finite value =>
      if value = 0 then .undefined else .infinite (negative != decide (value < 0))
    | .infinite left, .infinite right => .infinite (left != right)
    | _, _ => .undefined

theorem finite_add (left right : Int) : finite left + finite right = ofExact (left + right) := rfl

theorem finite_sub (left right : Int) : finite left - finite right = ofExact (left - right) := rfl

theorem finite_mul (left right : Int) : finite left * finite right = ofExact (left * right) := rfl

end Outcome

/-- A way to raise numbers to powers. How near it comes to the exact power is left to it. -/
abbrev Power := Int → Nat → Outcome

/-- The power that is rounded once. -/
def nearestPower : Power := fun base exponent => .ofExact (Int.pow base exponent)

theorem roundNat_of_lt {value : Nat} (small : value < exactBelow) : roundNat value = value := by
  simp [roundNat, small]

theorem round_of_natAbs_lt {value : Int} (small : value.natAbs < exactBelow) :
    round value = value := by
  unfold round
  rw [roundNat_of_lt small]
  split <;> omega

theorem round_of_natAbs_le {value : Int} (small : value.natAbs ≤ exactBelow) :
    round value = value := by
  rcases Nat.lt_or_eq_of_le small with less | equal
  · exact round_of_natAbs_lt less
  · have limit : roundNat exactBelow = exactBelow := by decide +kernel
    rw [round, equal, limit]
    split <;> omega

theorem Outcome.ofExact_of_natAbs_le {value : Int} (small : value.natAbs ≤ exactBelow) :
    ofExact value = .finite value := by
  have inRange : exactBelow < range := by decide +kernel
  rw [ofExact, round_of_natAbs_le small, if_pos (Nat.lt_of_le_of_lt small inRange)]

/-- Powers of a size up to which every whole number is kept come out exactly. -/
def Power.Faithful (power : Power) : Prop :=
  ∀ base exponent, (Int.pow base exponent).natAbs ≤ exactBelow →
    power base exponent = .finite (Int.pow base exponent)

theorem nearestPower_faithful : Power.Faithful nearestPower :=
  fun _ _ small => Outcome.ofExact_of_natAbs_le small

end AdventureMachine.Precision
