import AdventureMachine.Opcode
import AdventureMachine.Registers

/-! Decoded instructions. Operands are raw words: `a` is the first word behind the opcode, `b` and
`c` the next two. The seven operations that compute a word from two others share one form. -/
namespace AdventureMachine

/-- An operation that computes a word from two words. -/
inductive Binary where
  | eq
  | gt
  | add
  | mult
  | mod
  | and
  | or
deriving DecidableEq

namespace Binary

/-- The operation that carries out the computation. -/
def opcode : Binary → Opcode
  | eq => .eq
  | gt => .gt
  | add => .add
  | mult => .mult
  | mod => .mod
  | and => .and
  | or => .or

/-- The computed word. Sums and products wrap above the largest literal; there is no remainder by
zero. -/
def apply (operation : Binary) (b c : UInt16) : Except Error UInt16 :=
  match operation with
  | eq => .ok (if b = c then 1 else 0)
  | gt => .ok (if c < b then 1 else 0)
  | add => .ok (.ofNat ((b.toNat + c.toNat) % (maxLiteral + 1)))
  | mult => .ok (.ofNat (b.toNat * c.toNat % (maxLiteral + 1)))
  | mod => if c = 0 then .error (.divisionByZero b) else .ok (b % c)
  | and => .ok (b &&& c)
  | or => .ok (b ||| c)

end Binary

/-- A decoded instruction with its raw operands. -/
inductive Instruction where
  | halt
  | set (a b : UInt16)
  | push (a : UInt16)
  | pop (a : UInt16)
  | binary (operation : Binary) (a b c : UInt16)
  | jump (a : UInt16)
  /-- Jumps to `b` when the truth of `a` is `wanted`. -/
  | branch (wanted : Bool) (a b : UInt16)
  | invert (a b : UInt16)
  | readMemory (a b : UInt16)
  | writeMemory (a b : UInt16)
  | call (a : UInt16)
  | ret
  | output (a : UInt16)
  | input (a : UInt16)
  | noop
deriving DecidableEq

namespace Instruction

/-- The instruction of an opcode, given its operands by position. -/
def decode (opcode : Opcode) (operand : Nat → UInt16) : Instruction :=
  match opcode with
  | .halt => .halt
  | .set => .set (operand 0) (operand 1)
  | .push => .push (operand 0)
  | .pop => .pop (operand 0)
  | .eq => .binary .eq (operand 0) (operand 1) (operand 2)
  | .gt => .binary .gt (operand 0) (operand 1) (operand 2)
  | .jmp => .jump (operand 0)
  | .jt => .branch true (operand 0) (operand 1)
  | .jf => .branch false (operand 0) (operand 1)
  | .add => .binary .add (operand 0) (operand 1) (operand 2)
  | .mult => .binary .mult (operand 0) (operand 1) (operand 2)
  | .mod => .binary .mod (operand 0) (operand 1) (operand 2)
  | .and => .binary .and (operand 0) (operand 1) (operand 2)
  | .or => .binary .or (operand 0) (operand 1) (operand 2)
  | .not => .invert (operand 0) (operand 1)
  | .rmem => .readMemory (operand 0) (operand 1)
  | .wmem => .writeMemory (operand 0) (operand 1)
  | .call => .call (operand 0)
  | .ret => .ret
  | .output => .output (operand 0)
  | .input => .input (operand 0)
  | .noop => .noop

/-- The operation of an instruction. -/
def opcode : Instruction → Opcode
  | halt => .halt
  | set .. => .set
  | push _ => .push
  | pop _ => .pop
  | binary operation .. => operation.opcode
  | jump _ => .jmp
  | branch wanted .. => if wanted then .jt else .jf
  | invert .. => .not
  | readMemory .. => .rmem
  | writeMemory .. => .wmem
  | call _ => .call
  | ret => .ret
  | output _ => .output
  | input _ => .input
  | noop => .noop

/-- The raw operands in order. -/
def operands : Instruction → List UInt16
  | halt | ret | noop => []
  | push a | pop a | jump a | call a | output a | input a => [a]
  | set a b | branch _ a b | invert a b | readMemory a b | writeMemory a b => [a, b]
  | binary _ a b c => [a, b, c]

/-- The line of a listing: mnemonic and operands; a printable character that `out` writes is shown
behind them. -/
def text (instruction : Instruction) : String :=
  let words := instruction.opcode.mnemonic ::
    instruction.operands.map fun word => Operand.text (.ofWord word)
  let line := " ".intercalate words
  match instruction with
  | .output a =>
    if 0x20 ≤ a && a ≤ 0x7e then
      line ++ " ; '" ++ String.singleton (Char.ofNat a.toNat) ++ "'"
    else line
  | _ => line

@[simp]
theorem opcode_decode (code : Opcode) (operand : Nat → UInt16) :
    (decode code operand).opcode = code := by
  cases code <;> rfl

theorem operands_decode (code : Opcode) (operand : Nat → UInt16) :
    (decode code operand).operands = (List.range code.arity).map operand := by
  cases code <;> rfl

end Instruction

end AdventureMachine
