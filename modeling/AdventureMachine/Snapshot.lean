import AdventureMachine.Bytes
import AdventureMachine.Listing
import AdventureMachine.Machine

/-! Snapshots: memory, registers, program counter and stack as fixed-width little-endian fields.
The stack runs bottom first and takes up the rest of the bytes. Reading rejects values that no
running machine holds, in the order of the fields. -/
namespace AdventureMachine

/-- A saved machine. The stack has its bottom in front. -/
structure Snapshot where
  memory : Array UInt16
  registers : Array UInt16
  stack : List Number
  pc : Int

namespace Snapshot

/-- Bytes of a memory cell, a register or a stack entry. -/
abbrev cellSize : Nat := 4

/-- Bytes of the program counter. -/
abbrev counterSize : Nat := 8

/-- Where the registers start. -/
abbrev registersOffset : Nat := memorySize * cellSize

/-- Where the program counter starts. -/
abbrev counterOffset : Nat := registersOffset + registerCount * cellSize

/-- Where the stack starts, which is also the shortest length. -/
abbrev headerSize : Nat := counterOffset + counterSize

/-- The largest word in a memory cell. -/
abbrev maxCell : Nat := 0xffff

/-- The largest program counter. -/
abbrev maxCounter : Nat := 0xffffffff

/-- The field of a value, which wraps at the width of the field. -/
def field (width : Nat) (value : Int) : Bytes := Bytes.ofNat width (value % Bytes.capacity width).toNat

/-- The bytes of a snapshot; missing cells and registers are zero. -/
def encode (snapshot : Snapshot) : Bytes :=
  ((List.range memorySize).flatMap fun index =>
    field cellSize (snapshot.memory.getD index 0).toNat) ++
  ((List.range registerCount).flatMap fun index =>
    field cellSize (snapshot.registers.getD index 0).toNat) ++
  field counterSize snapshot.pc ++
  snapshot.stack.flatMap fun entry => field cellSize entry.truncate

/-- The first value above a limit and its position. -/
def firstAbove? (limit : Nat) (values : List Nat) : Option (Nat × Nat) :=
  (values.zipIdx.find? fun (value, _) => limit < value).map fun (value, index) => (index, value)

/-- The fields in front of the stack. -/
structure Header where
  cells : List Nat
  registers : List Nat
  pc : Nat

/-- Reads the fields in front of the stack. -/
def readHeader (bytes : Bytes) : Except Error Header :=
  if bytes.length < headerSize then .error (.shortSnapshot bytes.length headerSize)
  else
    let cells := Bytes.words cellSize (bytes.take registersOffset)
    let registers := Bytes.words cellSize ((bytes.drop registersOffset).take (registerCount * cellSize))
    let pc := Bytes.toNat ((bytes.drop counterOffset).take counterSize)
    match firstAbove? maxCell cells with
    | some (index, value) => .error (.snapshotCell index value (index * cellSize))
    | none =>
      match firstAbove? maxLiteral registers with
      | some (index, value) =>
        .error (.snapshotRegister index value (registersOffset + index * cellSize))
      | none =>
        if maxCounter < pc then .error (.snapshotCounter pc counterOffset)
        else .ok ⟨cells, registers, pc⟩

/-- Reads the stack that follows a header. -/
def readStack (header : Header) (tail : Bytes) : Except Error Snapshot :=
  let entries := Bytes.words cellSize tail
  match firstAbove? maxLiteral entries with
  | some (index, value) => .error (.snapshotStack index value (headerSize + index * cellSize))
  | none => .ok
    { memory := (header.cells.map .ofNat).toArray
      registers := (header.registers.map .ofNat).toArray
      stack := entries.map .ofNat
      pc := header.pc }

/-- A warning about bytes that make no whole stack entry. -/
def remarks (tail : Bytes) : List Log.Record :=
  if tail.length % cellSize = 0 then []
  else
    [.ofFields .warn "Ignoring trailing partial stack word in snapshot"
      [("trailingBytes", .count (tail.length % cellSize))]]

/-- Reads a snapshot and logs the warnings about it. -/
def loggedDecode (bytes : Bytes) : Logged (Except Error Snapshot) :=
  match readHeader bytes with
  | .error error => .quiet (.error error)
  | .ok header =>
    let tail := bytes.drop headerSize
    ⟨readStack header tail, remarks tail⟩

/-- Reads a snapshot. -/
def decode (bytes : Bytes) : Except Error Snapshot := (loggedDecode bytes).value

/-- The state that a snapshot restores. -/
def toState (snapshot : Snapshot) : State where
  memory := .ofWords snapshot.memory
  registers := .ofValues snapshot.registers
  stack := snapshot.stack.reverse
  pc := .whole snapshot.pc

/-- The snapshot for people: counter, registers, stack, and the next instruction if the counter is
inside memory. -/
def summary (snapshot : Snapshot) : String :=
  let registers := snapshot.registers.toList.zipIdx.map fun (value, index) =>
    "r" ++ decimal index ++ "=" ++ decimal value.toNat
  let stack := snapshot.stack.map Number.decimal
  let pc := Number.whole snapshot.pc
  let lines :=
    ["pc: " ++ pc.decimal,
      "registers: " ++ " ".intercalate registers,
      " ".intercalate (("stack (" ++ decimal stack.length ++ "):") :: stack)]
  let next :=
    if snapshot.pc < snapshot.memory.size then ["next: " ++ (Listing.line snapshot.memory pc).text]
    else []
  "\n".intercalate (lines ++ next)

end Snapshot

/-- A program counter that no snapshot can hold. -/
structure UnsavableCounter where
  pc : Number

/-- What is told about an unsavable counter. -/
def UnsavableCounter.message (counter : UnsavableCounter) : String :=
  "The number " ++ counter.pc.decimal ++
    " cannot be converted to a BigInt because it is not an integer"

namespace State

/-- The snapshot of a state; a fractional program counter can not be saved. -/
def snapshot (state : State) : Except UnsavableCounter Snapshot :=
  match state.pc with
  | .whole pc => .ok
    { memory := state.memory.cells.toArray
      registers := state.registers.values.toArray
      stack := state.stack.reverse
      pc }
  | pc => .error ⟨pc⟩

/-- The bytes of a saved state. -/
def save (state : State) : Except UnsavableCounter Bytes := state.snapshot.map Snapshot.encode

end State

namespace Machine

/-- A machine in the state of a snapshot. -/
def ofSnapshot {σ τ : Type} (bytes : Bytes) (source : σ) (sink : τ) (tracing : Bool) :
    Except Error (Machine σ τ) :=
  (Snapshot.decode bytes).map fun snapshot => .ofState snapshot.toState source sink tracing

/-- Restores a machine and logs the warnings about its snapshot. -/
def loggedOfSnapshot {σ τ : Type} (bytes : Bytes) (source : σ) (sink : τ) (tracing : Bool) :
    Logged (Except Error (Machine σ τ)) :=
  let restored := Snapshot.loggedDecode bytes
  ⟨restored.value.map fun snapshot => .ofState snapshot.toState source sink tracing,
    restored.journal⟩

end Machine

end AdventureMachine
