import AdventureMachine.Adventure

/-! Games as objects in a store. A machine refers to its state, its options and its transports, the
state to memory, registers and stack, a transport to its buffer and a buffer to its storage. What
two machines both refer to they share. A clone has registers, memory and stack of its own and is
wired to other transports; it shares the options, which no operation writes. -/
namespace AdventureMachine.Objects

/-- The place of an object in a store. -/
abbrev Ref := Nat

/-- What a place holds. -/
inductive Object where
  | storage (bytes : Array UInt8)
  | buffer (storage : Ref) (used : Nat)
  | transport (buffer : Ref) (cursor : Int)
  | registers (registers : Registers)
  | memory (memory : Memory)
  | stack (words : List Number)
  | options (tracing : Bool)
  | state (registers memory stack : Ref) (pc : Number)
  | machine (state input output options : Ref) (steps : Nat) (lastHalt : Option HaltReason)

/-- Objects in the order in which they were created. -/
abbrev Store := List Object

/-- Work on a store. It fails on a reference to nothing and on one to an object of another kind. -/
abbrev Work := StateT Store Option

/-- Creates an object. -/
def allocate (object : Object) : Work Ref := fun store => some (store.length, store ++ [object])

/-- The object at a place. -/
def fetch (ref : Ref) : Work Object := fun store => store[ref]?.map (·, store)

/-- Creates an object with the content of another. -/
def duplicate (ref : Ref) : Work Ref := do
  allocate (← fetch ref)

/-- The objects that make up one game, its options apart, in the order of their creation. -/
inductive Piece where
  | inputStorage
  | inputBuffer
  | input
  | outputStorage
  | outputBuffer
  | output
  | registers
  | memory
  | stack
  | state
  | machine
deriving DecidableEq

/-- All pieces in their order. -/
def Piece.all : List Piece :=
  [inputStorage, inputBuffer, input, outputStorage, outputBuffer, output, registers, memory, stack,
    state, machine]

/-- The position of a piece in the order. -/
def Piece.rank : Piece → Nat
  | inputStorage => 0
  | inputBuffer => 1
  | input => 2
  | outputStorage => 3
  | outputBuffer => 4
  | output => 5
  | registers => 6
  | memory => 7
  | stack => 8
  | state => 9
  | machine => 10

/-- Where the pieces of a game lie. -/
structure Layout where
  place : Piece → Ref
  options : Ref

namespace Layout

/-- The content of a piece of a game. -/
def object (layout : Layout) (game : Adventure) : Piece → Object
  | .inputStorage => .storage game.source.buffer.storage
  | .inputBuffer => .buffer (layout.place .inputStorage) game.source.buffer.used
  | .input => .transport (layout.place .inputBuffer) game.source.cursor
  | .outputStorage => .storage game.sink.buffer.storage
  | .outputBuffer => .buffer (layout.place .outputStorage) game.sink.buffer.used
  | .output => .transport (layout.place .outputBuffer) game.sink.cursor
  | .registers => .registers game.registers
  | .memory => .memory game.memory
  | .stack => .stack game.stack
  | .state => .state (layout.place .registers) (layout.place .memory) (layout.place .stack) game.pc
  | .machine =>
    .machine (layout.place .state) (layout.place .input) (layout.place .output) layout.options
      game.steps game.lastHalt

/-- The same layout with one piece elsewhere. -/
def relocate (layout : Layout) (piece : Piece) (ref : Ref) : Layout :=
  { layout with place := fun other => if other = piece then ref else layout.place other }

end Layout

/-- The buffer that storage and the length of the part in use make up. -/
def buffer? (storage : Array UInt8) (used : Nat) : Option ByteBuffer :=
  if sound : used ≤ storage.size ∧ 0 < storage.size then some ⟨storage, used, sound.1, sound.2⟩
  else none

/-- The layout of a machine, found by following its references. -/
def layout? (store : Store) (machine : Ref) : Option Layout := do
  let .machine state input output options .. ← store[machine]? | none
  let .state registers memory stack _ ← store[state]? | none
  let .transport inputBuffer _ ← store[input]? | none
  let .buffer inputStorage _ ← store[inputBuffer]? | none
  let .transport outputBuffer _ ← store[output]? | none
  let .buffer outputStorage _ ← store[outputBuffer]? | none
  return { options
           place := fun
             | .inputStorage => inputStorage
             | .inputBuffer => inputBuffer
             | .input => input
             | .outputStorage => outputStorage
             | .outputBuffer => outputBuffer
             | .output => output
             | .registers => registers
             | .memory => memory
             | .stack => stack
             | .state => state
             | .machine => machine }

/-- The game that lies in a store as laid out. -/
def Layout.game? (layout : Layout) (store : Store) : Option Adventure := do
  let .storage queued ← store[layout.place .inputStorage]? | none
  let .buffer _ queuedUsed ← store[layout.place .inputBuffer]? | none
  let .transport _ position ← store[layout.place .input]? | none
  let .storage shown ← store[layout.place .outputStorage]? | none
  let .buffer _ shownUsed ← store[layout.place .outputBuffer]? | none
  let .transport _ cursor ← store[layout.place .output]? | none
  let .registers registers ← store[layout.place .registers]? | none
  let .memory memory ← store[layout.place .memory]? | none
  let .stack stack ← store[layout.place .stack]? | none
  let .state _ _ _ pc ← store[layout.place .state]? | none
  let .machine _ _ _ _ steps lastHalt ← store[layout.place .machine]? | none
  let .options tracing ← store[layout.options]? | none
  let source := ⟨← buffer? queued queuedUsed, position⟩
  let sink := ⟨← buffer? shown shownUsed, cursor⟩
  return { registers, memory, stack, pc, source, sink, steps, lastHalt, tracing }

/-- The game of a machine. -/
def game? (store : Store) (machine : Ref) : Option Adventure := do
  (← layout? store machine).game? store

/-- The game of a machine together with its layout. -/
def load (machine : Ref) : Work (Layout × Adventure) := fun store => do
  let layout ← layout? store machine
  let game ← layout.game? store
  return ((layout, game), store)

/-- Makes room for storage that has grown: it is a new object then, and else the old one. -/
def Layout.rehouse (layout : Layout) (piece : Piece) (before after : Array UInt8) :
    Work Layout :=
  if after.size = before.size then return layout
  else return layout.relocate piece (← allocate (.storage after))

/-- Writes a game over the objects of a layout. -/
def Layout.write (layout : Layout) (game : Adventure) (store : Store) : Store :=
  Piece.all.foldl (fun store piece => store.set (layout.place piece) (layout.object game piece))
    store

/-- Leaves `next` in the objects of `game`. -/
def save (layout : Layout) (game next : Adventure) : Work Unit := do
  let layout ←
    layout.rehouse .inputStorage game.source.buffer.storage next.source.buffer.storage
  let layout ← layout.rehouse .outputStorage game.sink.buffer.storage next.sink.buffer.storage
  modify (layout.write next)

/-- Creates a transport with a buffer and storage of its own. -/
def transport (buffer : ByteBuffer) (cursor : Int) : Work Ref := do
  let storage ← allocate (.storage buffer.storage)
  let buffer ← allocate (.buffer storage buffer.used)
  allocate (.transport buffer cursor)

/-- Creates a machine that has not executed anything, with copies of registers, memory and stack. -/
def construct (input output options registers memory stack : Ref) (pc : Number) : Work Ref := do
  let registers ← duplicate registers
  let memory ← duplicate memory
  let stack ← duplicate stack
  let state ← allocate (.state registers memory stack pc)
  allocate (.machine state input output options 0 none)

/-- Creates a machine for a game that was just loaded. -/
def build (game : Adventure) : Work Ref := do
  let options ← allocate (.options game.tracing)
  let registers ← allocate (.registers game.registers)
  let memory ← allocate (.memory game.memory)
  let stack ← allocate (.stack game.stack)
  let input ← transport game.source.buffer game.source.cursor
  let output ← transport game.sink.buffer game.sink.cursor
  construct input output options registers memory stack game.pc

/-- Copies a machine onto other transports. The counters are private, so they are set behind the
construction. -/
def clone (machine input output : Ref) : Work Ref := do
  let .machine state _ _ options steps lastHalt ← fetch machine | failure
  let .state registers memory stack pc ← fetch state | failure
  let copy ← construct input output options registers memory stack pc
  let .machine state input output options .. ← fetch copy | failure
  modify (·.set copy (.machine state input output options steps lastHalt))
  return copy

/-- Copies a machine onto new transports. -/
def cloneOnto (machine : Ref) (source : BufferedInput) (sink : BufferedOutput) : Work Ref := do
  let input ← transport source.buffer source.cursor
  let output ← transport sink.buffer sink.cursor
  clone machine input output

/-- An independent copy of a machine and both transports. -/
def fork (machine : Ref) : Work Ref := do
  let (_, game) ← load machine
  cloneOnto machine game.source.clone game.sink.clone

end AdventureMachine.Objects
