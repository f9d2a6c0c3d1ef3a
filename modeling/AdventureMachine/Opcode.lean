/-! The twenty-two operations: their numbers, mnemonics and operand counts. -/
namespace AdventureMachine

/-- An operation of the machine. -/
inductive Opcode where
  | halt
  | set
  | push
  | pop
  | eq
  | gt
  | jmp
  | jt
  | jf
  | add
  | mult
  | mod
  | and
  | or
  | not
  | rmem
  | wmem
  | call
  | ret
  | output
  | input
  | noop
deriving DecidableEq

namespace Opcode

/-- The word that encodes an operation. -/
def code : Opcode → Nat
  | halt => 0
  | set => 1
  | push => 2
  | pop => 3
  | eq => 4
  | gt => 5
  | jmp => 6
  | jt => 7
  | jf => 8
  | add => 9
  | mult => 10
  | mod => 11
  | and => 12
  | or => 13
  | not => 14
  | rmem => 15
  | wmem => 16
  | call => 17
  | ret => 18
  | output => 19
  | input => 20
  | noop => 21

/-- The operation that a word encodes. -/
def ofCode? : Nat → Option Opcode
  | 0 => some halt
  | 1 => some set
  | 2 => some push
  | 3 => some pop
  | 4 => some eq
  | 5 => some gt
  | 6 => some jmp
  | 7 => some jt
  | 8 => some jf
  | 9 => some add
  | 10 => some mult
  | 11 => some mod
  | 12 => some and
  | 13 => some or
  | 14 => some not
  | 15 => some rmem
  | 16 => some wmem
  | 17 => some call
  | 18 => some ret
  | 19 => some output
  | 20 => some input
  | 21 => some noop
  | _ => none

/-- The name of an operation in listings and assembly. -/
def mnemonic : Opcode → String
  | halt => "halt"
  | set => "set"
  | push => "push"
  | pop => "pop"
  | eq => "eq"
  | gt => "gt"
  | jmp => "jmp"
  | jt => "jt"
  | jf => "jf"
  | add => "add"
  | mult => "mult"
  | mod => "mod"
  | and => "and"
  | or => "or"
  | not => "not"
  | rmem => "rmem"
  | wmem => "wmem"
  | call => "call"
  | ret => "ret"
  | output => "out"
  | input => "in"
  | noop => "noop"

/-- Operand words behind the opcode. -/
def arity : Opcode → Nat
  | halt | ret | noop => 0
  | push | pop | jmp | call | output | input => 1
  | set | jt | jf | not | rmem | wmem => 2
  | eq | gt | add | mult | mod | and | or => 3

/-- All operations in the order of the instruction table: control flow, registers and stack,
comparison, arithmetic, bits, memory, transport. -/
def table : List Opcode :=
  [halt, jmp, jt, jf, call, ret, noop, set, push, pop, eq, gt, add, mult, mod, and, or, not, rmem,
    wmem, output, input]

/-- The operation with a given mnemonic. -/
def ofMnemonic? (name : String) : Option Opcode := table.find? (·.mnemonic == name)

@[simp]
theorem ofCode?_code (opcode : Opcode) : ofCode? opcode.code = some opcode := by
  cases opcode <;> rfl

theorem code_eq_of_ofCode? {number : Nat} {opcode : Opcode} (found : ofCode? number = some opcode) :
    opcode.code = number := by
  unfold ofCode? at found
  split at found <;> simp_all <;> subst found <;> rfl

end Opcode

end AdventureMachine
