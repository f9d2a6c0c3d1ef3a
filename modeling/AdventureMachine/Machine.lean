import AdventureMachine.Instruction
import AdventureMachine.Memory
import AdventureMachine.Transport

/-! The machine and its single step. A step first plans one action from memory, registers and
stack, where every check is made, and then performs it. So it either commits, or leaves the program
counter on the instruction that halted or faulted. -/
namespace AdventureMachine

/-- Why a machine stopped without a failure. -/
inductive HaltReason where
  | haltOpcode
  | emptyReturn
  | inputExhausted
deriving DecidableEq

/-- The name of a halt reason. -/
def HaltReason.name : HaltReason → String
  | haltOpcode => "halt_opcode"
  | emptyReturn => "empty_return"
  | inputExhausted => "input_exhausted"

/-- What a snapshot keeps of a machine. The stack has its top in front. -/
structure State where
  memory : Memory
  registers : Registers
  stack : List Number
  pc : Number

/-- A machine wired to its transports. -/
structure Machine (σ τ : Type) extends State where
  source : σ
  sink : τ
  /-- Instructions executed to completion. -/
  steps : Nat
  /-- The reason of the latest halt, until a step commits. -/
  lastHalt : Option HaltReason
  /-- Whether every executed instruction is logged. -/
  tracing : Bool

/-- The one thing that an instruction does, once all its checks have passed. -/
inductive Action where
  | advance
  | assign (register : Fin registerCount) (value : UInt16)
  | write (address : Fin memorySize) (value : UInt16)
  | push (value : Number)
  /-- Takes the top of the stack into a register. -/
  | pop (register : Fin registerCount) (value : UInt16)
  /-- Takes the top of the stack and reports that no register can hold it. -/
  | drop (error : Error)
  | jump (target : UInt16)
  | call (target : UInt16)
  | ret (target : Number)
  | emit (byte : UInt8)
  | receive (register : Fin registerCount)
  | stop (reason : HaltReason)

namespace State

/-- The state before a program starts. -/
def initial (memory : Memory) : State := ⟨memory, .zero, [], 0⟩

/-- The instruction at the program counter and the address behind it. Operands stay unresolved; an
operand beyond memory is reported by the first address that is missing. -/
def fetch (state : State) : Except Error (Instruction × Nat) :=
  match state.pc.index? memorySize with
  | none => .error (.invalidAddress state.pc)
  | some address =>
    let word := state.memory.get address
    match Opcode.ofCode? word.toNat with
    | none => .error (.unknownOpcode word)
    | some opcode =>
      if address.val + opcode.arity < memorySize then
        .ok (.decode opcode fun position => state.memory.word (address.val + 1 + position),
          address.val + 1 + opcode.arity)
      else .error (.invalidAddress (.ofNat memorySize))

/-- Stores a computed word in the register that `destination` names. The word is read as an operand
once more, which matters only for words that are no literals. -/
def assignment (state : State) (destination word : UInt16) : Except Error Action := do
  let value ← state.registers.resolve word
  let register ← Operand.wordDestination destination
  return .assign register value

/-- The action of an instruction, or the check that it fails. -/
def plan (state : State) (instruction : Instruction) : Except Error Action :=
  match instruction with
  | .halt => .ok (.stop .haltOpcode)
  | .set a b => do
    let value ← state.registers.resolve b
    state.assignment a value
  | .push a => do
    let value ← state.registers.resolve a
    return .push (.ofWord value)
  | .pop a => do
    let register ← Operand.wordDestination a
    match state.stack with
    | [] => .error .emptyStack
    | top :: _ =>
      match state.registers.load top with
      | .ok value => return .pop register value.toWord
      | .error error => return .drop error
  | .binary operation a b c => do
    let left ← state.registers.resolve b
    let right ← state.registers.resolve c
    let value ← operation.apply left right
    state.assignment a value
  | .jump a => do
    let target ← state.registers.resolve a
    return .jump target
  | .branch wanted a b => do
    let condition ← state.registers.resolve a
    if (condition != 0) = wanted then
      let target ← state.registers.resolve b
      return .jump target
    else return .advance
  | .invert a b => do
    let value ← state.registers.resolve b
    state.assignment a (~~~value &&& 0x7fff)
  | .readMemory a b => do
    let address ← state.registers.resolve b
    let word ← state.memory.read (.ofWord address)
    state.assignment a word
  | .writeMemory a b => do
    let address ← state.registers.resolve a
    let value ← state.registers.resolve b
    match (Number.ofWord address).index? memorySize with
    | some index => return .write index value
    | none => .error (.invalidAddress (.ofWord address))
  | .call a => do
    let target ← state.registers.resolve a
    return .call target
  | .ret =>
    match state.stack with
    | [] => .ok (.stop .emptyReturn)
    | top :: _ => .ok (.ret top)
  | .output a => do
    let value ← state.registers.resolve a
    return .emit value.toUInt8
  | .input a => do
    let register ← Operand.wordDestination a
    return .receive register
  | .noop => .ok .advance

end State

namespace Machine

variable {σ τ : Type}

/-- How a step or a run ended: `none` while the machine can go on. -/
abbrev Outcome := Except Error (Option HaltReason)

/-- A machine in a given state that has not executed anything. -/
def ofState (state : State) (source : σ) (sink : τ) (tracing : Bool) : Machine σ τ :=
  { state with source, sink, steps := 0, lastHalt := none, tracing }

/-- The same machine wired to other transports. -/
def rewire {σ' τ' : Type} (machine : Machine σ τ) (source : σ') (sink : τ') : Machine σ' τ' :=
  { machine with source, sink }

/-- Counts an executed instruction and moves on to `pc`. -/
def commit (machine : Machine σ τ) (pc : Number) : Machine σ τ × Outcome :=
  ({ machine with pc, steps := machine.steps + 1, lastHalt := none }, .ok none)

/-- Stays on the instruction and keeps the reason. -/
def halt (machine : Machine σ τ) (reason : HaltReason) : Machine σ τ × Outcome :=
  ({ machine with lastHalt := some reason }, .ok (some reason))

/-- Performs an action; `next` is the address behind the instruction. -/
@[specialize]
def perform [ByteSource σ] [ByteSink τ] (machine : Machine σ τ) (next : Nat) (action : Action) :
    Machine σ τ × Outcome :=
  match action with
  | .advance => machine.commit (.ofNat next)
  | .assign register value =>
    commit { machine with registers := machine.registers.put register value } (.ofNat next)
  | .write address value =>
    commit { machine with memory := machine.memory.put address value } (.ofNat next)
  | .push value => commit { machine with stack := value :: machine.stack } (.ofNat next)
  | .pop register value =>
    commit { machine with
      stack := machine.stack.tail
      registers := machine.registers.put register value } (.ofNat next)
  | .drop error => ({ machine with stack := machine.stack.tail }, .error error)
  | .jump target => machine.commit (.ofWord target)
  | .call target =>
    commit { machine with stack := .ofNat next :: machine.stack } (.ofWord target)
  | .ret target => commit { machine with stack := machine.stack.tail } target
  | .emit byte =>
    match ByteSink.writeByte machine.sink byte with
    | (.ok (), sink) => commit { machine with sink } (.ofNat next)
    | (.error error, sink) => ({ machine with sink }, .error error)
  | .receive register =>
    match ByteSource.readVisible machine.source with
    | (.ok (some byte), source) =>
      commit { machine with
        source
        registers := machine.registers.put register byte.toUInt16 } (.ofNat next)
    | (.ok none, source) => halt { machine with source } .inputExhausted
    | (.error error, source) => ({ machine with source }, .error error)
  | .stop reason => machine.halt reason

/-- Executes one instruction. -/
@[specialize]
def step [ByteSource σ] [ByteSink τ] (machine : Machine σ τ) : Machine σ τ × Outcome :=
  match machine.toState.fetch with
  | .error error => (machine, .error error)
  | .ok (instruction, next) =>
    match machine.toState.plan instruction with
    | .error error => (machine, .error error)
    | .ok action => machine.perform next action

/-- The record of the instruction about to be executed, when the machine is traced. -/
def traceRecord? (machine : Machine σ τ) : Option Log.Record :=
  if machine.tracing then
    match machine.toState.fetch with
    | .ok (instruction, _) =>
      some (.ofFields .debug "Executing instruction"
        [("pc", .number machine.pc), ("instruction", .text instruction.text)])
    | .error _ => none
  else none

/-- Executes one instruction and logs it when the machine is traced. -/
@[specialize]
def loggedStep [ByteSource σ] [ByteSink τ] (machine : Machine σ τ) :
    Logged (Machine σ τ × Outcome) :=
  let journal := machine.traceRecord?.toList
  ⟨machine.step, journal⟩

/-- Sets a register from outside; only literals are accepted. -/
def setRegister (machine : Machine σ τ) (index value : Number) : Except Error (Machine σ τ) :=
  match value with
  | .whole _ =>
    if value.within 0 maxLiteral then
      (machine.registers.set (index.shift firstRegister) value).map
        fun registers => { machine with registers }
    else .error (.invalidLoad value)
  | .fraction .. => .error (.invalidLoad value)

end Machine

end AdventureMachine
