import AdventureMachine.Error

/-! The register file and the reading of operands. A word up to 32767 is a literal, the next eight
words name the registers, and every word above them is invalid. -/
namespace AdventureMachine

/-- Registers of a machine. -/
abbrev registerCount : Nat := 8

-- The zero is named, as for literal addresses.
instance : @NeZero Nat .ofOfNat0 registerCount := ⟨Nat.succ_ne_zero _⟩

/-- The largest literal; arithmetic wraps right above it. -/
abbrev maxLiteral : Nat := 32767

/-- The operand that names the first register. -/
abbrev firstRegister : Nat := 32768

/-- The contents of the eight registers. -/
structure Registers where
  values : Vector UInt16 registerCount
deriving DecidableEq

namespace Operand

/-- The register that a number names as an operand. -/
def register? (operand : Number) : Option (Fin registerCount) :=
  (operand.shift (-firstRegister)).index? registerCount

/-- The register that a word names as an operand. -/
def wordRegister? (word : UInt16) : Option (Fin registerCount) :=
  let index := word.toNat - firstRegister
  if bound : firstRegister ≤ word.toNat ∧ index < registerCount then some ⟨index, bound.2⟩
  else none

/-- Whether a number lies in the range of the register operands. -/
def inRegisterRange (operand : Number) : Bool :=
  operand.within firstRegister (firstRegister + registerCount - 1)

/-- The register that a destination names. -/
def destination (operand : Number) : Except Error (Fin registerCount) :=
  match register? operand with
  | some index => .ok index
  | none => .error (.invalidStore operand)

/-- The register that a destination word names. -/
def wordDestination (word : UInt16) : Except Error (Fin registerCount) :=
  match wordRegister? word with
  | some index => .ok index
  | none => .error (.invalidStore (.ofWord word))

/-- An operand in a listing: a register by name, a literal in decimal, the rest in hexadecimal. -/
def text (operand : Number) : String :=
  match register? operand with
  | some index => "r" ++ decimal index
  | none =>
    if operand.ceiling > maxLiteral then operand.hex else operand.decimal

end Operand

namespace Registers

/-- Registers that start with `values`, zero behind them. -/
def ofValues (values : Array UInt16) : Registers := ⟨.ofFn fun index => values.getD index 0⟩

/-- All registers zero. -/
def zero : Registers := ⟨.replicate registerCount 0⟩

/-- The value in a register. -/
def get (registers : Registers) (index : Fin registerCount) : UInt16 := registers.values[index]

/-- Stores a value in a register. -/
def put (registers : Registers) (index : Fin registerCount) (value : UInt16) : Registers :=
  ⟨registers.values.set index.val value index.isLt⟩

/-- The values, first register first. -/
def toList (registers : Registers) : List UInt16 := registers.values.toList

/-- The value that an operand denotes. -/
def load (registers : Registers) (operand : Number) : Except Error Number :=
  if operand.within 0 maxLiteral then .ok operand
  else
    match Operand.register? operand with
    | some index => .ok (.ofWord (registers.get index))
    | none => .error (.invalidLoad operand)

/-- The value that an operand word denotes. -/
def resolve (registers : Registers) (word : UInt16) : Except Error UInt16 :=
  if word.toNat ≤ maxLiteral then .ok word
  else
    match Operand.wordRegister? word with
    | some index => .ok (registers.get index)
    | none => .error (.invalidLoad (.ofWord word))

/-- Resolves `source` and stores it in the register that `destination` names; an invalid source is
reported before an invalid destination. -/
def set (registers : Registers) (destination source : Number) : Except Error Registers := do
  let value ← registers.load source
  let index ← Operand.destination destination
  return registers.put index value.toWord

theorem get_put (registers : Registers) (index other : Fin registerCount) (value : UInt16) :
    (registers.put index value).get other = if index = other then value else registers.get other := by
  simp only [get, put, Fin.getElem_fin, Vector.getElem_set, Fin.val_inj]

@[simp]
theorem get_ofValues (values : Array UInt16) (index : Fin registerCount) :
    (ofValues values).get index = values.getD index 0 := by
  simp [get, ofValues]

end Registers

end AdventureMachine
