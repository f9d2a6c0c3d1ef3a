import Std.Data.HashMap

/-! The check that a teleporter makes of its energy level. It evaluates, modulo 32768,

* `f 0 n = n + 1`,
* `f (m + 1) 0 = f m level`,
* `f (m + 1) (n + 1) = f m (f (m + 1) n)`.

The first four rows have closed forms; the others are tabulated as far as they are needed. -/
namespace AdventureMachine.Teleporter

/-- The words of the machine wrap here. -/
abbrev modulus : Nat := 32768

/-- The sum of `base ^ p` over `p < count`, and `base ^ count`, both modulo the word size. -/
def geometric (base count : Nat) : Nat × Nat :=
  if count = 0 then (0, 1)
  else
    let (sum, power) := geometric base (count / 2)
    let sum := (sum + sum * power) % modulus
    let power := power * power % modulus
    if count % 2 = 0 then (sum, power)
    else ((sum + power) % modulus, power * base % modulus)
termination_by count
decreasing_by omega

/-- `f 1 0`, the ratio by which the third row grows. -/
def ratio (level : Nat) : Nat := (level + 1) % modulus

/-- `f 2 0`. -/
def offset (level : Nat) : Nat := (ratio level + level) % modulus

/-- `f 3 0`. -/
def start (level : Nat) : Nat := (level * ratio level + offset level) % modulus

/-- The entries of the higher rows known so far. -/
abbrev Rows := Std.HashMap Nat (Array Nat)

/-- Adds `missing` entries to a row, each computed by the row below from the entry before it. -/
def extend (level : Nat) (below : Nat → StateM Rows Nat) :
    (missing : Nat) → Array Nat → StateM Rows (Array Nat)
  | 0, row => pure row
  | missing + 1, row => do
    let next ← below (row.back?.getD level)
    extend level below missing (row.push next)

/-- The value of `f m n`, which adds to the known rows what it had to compute. -/
def evaluate (level : Nat) : (m n : Nat) → StateM Rows Nat
  | 0, n => pure ((n + 1) % modulus)
  | 1, n => pure ((ratio level + n) % modulus)
  | 2, n => pure ((n * ratio level + offset level) % modulus)
  | 3, n =>
    let (sum, power) := geometric (ratio level) n
    pure ((start level * power + offset level * sum) % modulus)
  | m + 4, n => do
    let row ← modifyGet fun rows => (rows.getD m #[], rows.erase m)
    let row ← extend level (evaluate level (m + 3)) (n + 1 - row.size) row
    let value := row.getD n 0
    modify fun rows => rows.insert m row
    return value

/-- The value of `f m n` for one level. -/
def value (level m n : Nat) : Nat := (evaluate level m n |>.run {}).1

/-- The least level, among `count` of them from `first` on, for which `f m n` meets the target. -/
def findLevel? (m n target : Nat) : (count first : Nat) → Option Nat
  | 0, _ => none
  | count + 1, first =>
    if value first m n = target then some first else findLevel? m n target count (first + 1)

/-- The least level in a closed range for which `f m n` meets the target. -/
def level? (m n target first last : Nat) : Option Nat :=
  findLevel? m n target (last + 1 - first) first

end AdventureMachine.Teleporter
