import AdventureMachine.Proofs.Operand
import AdventureMachine.Proofs.Transport

/-! The instruction table on exact integers: which operation a machine is at, when it halts there,
what the operation needs, and the one effect it has. -/
namespace AdventureMachine

variable {σ τ : Type}

/-- A machine whose words are natural numbers, so that nothing wraps unless the table says so. -/
structure Exact (σ τ : Type) where
  memory : Nat → Nat
  registers : Fin registerCount → Nat
  stack : List Number
  pc : Number
  source : σ
  sink : τ
  steps : Nat
  lastHalt : Option HaltReason
  tracing : Bool

namespace Exact

/-- The operation at the program counter, when it lies inside memory with all its operands. -/
structure At (machine : Exact σ τ) (opcode : Opcode) (address : Nat) : Prop where
  counter : machine.pc = .ofNat address
  inside : address + opcode.arity < memorySize
  encoded : machine.memory address = opcode.code

/-- A machine is at one operation at most. -/
theorem At.unique {machine : Exact σ τ} {opcode other : Opcode} {address elsewhere : Nat}
    (here : machine.At opcode address) (there : machine.At other elsewhere) :
    opcode = other ∧ address = elsewhere := by
  have place : address = elsewhere :=
    Int.ofNat.inj (Number.whole.inj (here.counter.symm.trans there.counter))
  subst place
  have code : opcode.code = other.code := here.encoded.symm.trans there.encoded
  have decoded := congrArg Opcode.ofCode? code
  rw [Opcode.ofCode?_code, Opcode.ofCode?_code] at decoded
  exact ⟨Option.some.inj decoded, rfl⟩

/-- The integer that an operand denotes: a literal itself, or the content of the register it
names. -/
def denoted (machine : Exact σ τ) (operand : Nat) : Nat :=
  if operand ≤ maxLiteral then operand
  else machine.registers (Operand.registerAt operand)

/-- The raw operand at a position behind the operation at `address`. -/
def operand (machine : Exact σ τ) (address position : Nat) : Nat :=
  machine.memory (address + 1 + position)

/-- The integer that the operand at a position denotes. -/
def value (machine : Exact σ τ) (address position : Nat) : Nat :=
  machine.denoted (machine.operand address position)

/-- Whether the first operand is a register operand. -/
def Names (machine : Exact σ τ) (address : Nat) : Prop :=
  firstRegister ≤ machine.operand address 0 ∧ machine.operand address 0 ≤ lastOperand

/-- The positions of the operands that an operation reads; a jump that is not taken leaves its
target unread. -/
def sources (machine : Exact σ τ) (opcode : Opcode) (address : Nat) : List Nat :=
  match opcode with
  | .halt | .ret | .noop | .pop | .input => []
  | .push | .jmp | .call | .output => [0]
  | .set | .not | .rmem => [1]
  | .wmem => [0, 1]
  | .eq | .gt | .add | .mult | .mod | .and | .or => [1, 2]
  | .jt => if machine.value address 0 = 0 then [0] else [0, 1]
  | .jf => if machine.value address 0 = 0 then [0, 1] else [0]

theorem sources_binary (machine : Exact σ τ) (operation : Binary) (address : Nat) :
    machine.sources operation.opcode address = [1, 2] := by
  cases operation <;> rfl

/-- The operations whose first operand is a destination. -/
def stores : Opcode → Bool
  | .set | .pop | .eq | .gt | .add | .mult | .mod | .and | .or | .not | .rmem | .input => true
  | .halt | .push | .jmp | .jt | .jf | .wmem | .call | .ret | .output | .noop => false

section

variable [ByteSource σ] [ByteSink τ]

/-- What an operation needs beside valid operands. -/
def Permits (machine : Exact σ τ) (opcode : Opcode) (address : Nat) : Prop :=
  match opcode with
  | .mod => machine.value address 2 ≠ 0
  | .pop => machine.stack ≠ []
  | .rmem => machine.memory (machine.value address 1) ≤ lastOperand
  | .output => (ByteSink.writeByte machine.sink (.ofNat (machine.value address 0))).1 = .ok ()
  | .input => ∀ error rest, ¬ ByteSource.Answers machine.source (.error error) rest
  | _ => True

/-- The operation at the program counter can be executed. -/
structure Commits (machine : Exact σ τ) (opcode : Opcode) (address : Nat) : Prop extends
    machine.At opcode address where
  readable : ∀ position ∈ machine.sources opcode address,
    machine.operand address position ≤ lastOperand
  writable : stores opcode = true → machine.Names address
  permitted : machine.Permits opcode address

/-- The machine is at an operation that stops it without a failure. -/
def Halts (machine : Exact σ τ) : HaltReason → Prop
  | .haltOpcode => ∃ address, machine.At .halt address
  | .emptyReturn => (∃ address, machine.At .ret address) ∧ machine.stack = []
  | .inputExhausted => ∃ address, machine.At .input address ∧ machine.Names address ∧
    ∃ rest, ByteSource.Answers machine.source (.ok none) rest

end

/-- The machine with another value in the register that the first operand names. -/
def store (machine : Exact σ τ) (address value : Nat) : Exact σ τ :=
  let register := Operand.registerAt (machine.operand address 0)
  { machine with
    registers := fun index => if register = index then value else machine.registers index }

/-- The machine with another word in one cell. -/
def write (machine : Exact σ τ) (address value : Nat) : Exact σ τ :=
  { machine with
    memory := fun other => if address = other then value else machine.memory other }

/-- The machine with another entry on top of its stack. -/
def push (machine : Exact σ τ) (entry : Nat) : Exact σ τ :=
  { machine with stack := .ofNat entry :: machine.stack }

/-- The machine behind a committed step. -/
def moveTo (machine : Exact σ τ) (pc : Number) : Exact σ τ :=
  { machine with pc, steps := machine.steps + 1, lastHalt := none }

/-- The one effect of each operation. -/
def Effect [ByteSource σ] [ByteSink τ] (machine : Exact σ τ) (opcode : Opcode) (address : Nat)
    (after : Exact σ τ) : Prop :=
  let next := address + 1 + opcode.arity
  let a := machine.value address 0
  let b := machine.value address 1
  let c := machine.value address 2
  let stored (value : Nat) := after = (machine.store address value).moveTo (.ofNat next)
  match opcode with
  | .halt => False
  | .set => stored b
  | .push => after = (machine.push a).moveTo (.ofNat next)
  | .pop => ∃ top rest, machine.stack = .ofNat top :: rest ∧
    after = (({ machine with stack := rest } : Exact σ τ).store address top).moveTo (.ofNat next)
  | .eq => stored (if b = c then 1 else 0)
  | .gt => stored (if b > c then 1 else 0)
  | .jmp => after = machine.moveTo (.ofNat a)
  | .jt => after = machine.moveTo (.ofNat (if a = 0 then next else b))
  | .jf => after = machine.moveTo (.ofNat (if a = 0 then b else next))
  | .add => stored ((b + c) % 32768)
  | .mult => stored (b * c % 32768)
  | .mod => stored (b % c)
  | .and => stored (b &&& c)
  | .or => stored (b ||| c)
  | .not => stored (32767 - b)
  | .rmem => stored (machine.denoted (machine.memory b))
  | .wmem => after = (machine.write a b).moveTo (.ofNat next)
  | .call => after = (machine.push next).moveTo (.ofNat a)
  | .ret => ∃ top rest, machine.stack = top :: rest ∧
    after = ({ machine with stack := rest } : Exact σ τ).moveTo top
  | .output =>
    let sink := (ByteSink.writeByte machine.sink (.ofNat a)).2
    after = ({ machine with sink } : Exact σ τ).moveTo (.ofNat next)
  | .input => ∃ byte source, ByteSource.Answers machine.source (.ok (some byte)) source ∧
    after = (({ machine with source } : Exact σ τ).store address byte.toNat).moveTo (.ofNat next)
  | .noop => after = machine.moveTo (.ofNat next)

end Exact

end AdventureMachine
