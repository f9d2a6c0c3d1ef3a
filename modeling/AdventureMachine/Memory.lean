import AdventureMachine.Error

/-! Main memory: 32768 cells of sixteen bits. Cells hold raw words because operand encodings are
stored next to code. An access outside the address space is reported, never wrapped. -/
namespace AdventureMachine

/-- Addressable cells. -/
abbrev memorySize : Nat := 32768

-- The zero is named, so that a literal address is the same term whatever else is imported.
instance : @NeZero Nat .ofOfNat0 memorySize := ⟨Nat.succ_ne_zero _⟩

/-- The cells of a machine. -/
structure Memory where
  cells : Vector UInt16 memorySize
deriving DecidableEq

namespace Memory

/-- Memory that starts with `words`, zero behind them; words past the end are dropped. -/
def ofWords (words : Array UInt16) : Memory := ⟨.ofFn fun index => words.getD index 0⟩

/-- Memory with every cell zero. -/
def zero : Memory := ⟨.replicate memorySize 0⟩

/-- The word in a cell. -/
def get (memory : Memory) (address : Fin memorySize) : UInt16 := memory.cells[address]

/-- The word at an address, zero outside the address space. -/
def word (memory : Memory) (address : Nat) : UInt16 := memory.cells.toArray.getD address 0

/-- Stores a word in a cell. -/
def put (memory : Memory) (address : Fin memorySize) (word : UInt16) : Memory :=
  ⟨memory.cells.set address.val word address.isLt⟩

/-- Whether a number names a cell. -/
def isAddress (address : Number) : Bool := (address.index? memorySize).isSome

/-- The word at an address. -/
def read (memory : Memory) (address : Number) : Except Error UInt16 :=
  match address.index? memorySize with
  | some index => .ok (memory.get index)
  | none => .error (.invalidAddress address)

/-- Stores the low sixteen bits of a value at an address. -/
def write (memory : Memory) (address value : Number) : Except Error Memory :=
  match address.index? memorySize with
  | some index => .ok (memory.put index value.toWord)
  | none => .error (.invalidAddress address)

/-- Stores a word where the number names a cell and leaves memory alone elsewhere. -/
private def place (memory : Memory) (address : Number) (word : UInt16) : Memory :=
  match address.index? memorySize with
  | some index => memory.put index word
  | none => memory

/-- Copies words into memory from `address` on; words that fall outside are dropped. -/
def load (memory : Memory) (address : Number) : List UInt16 → Memory
  | [] => memory
  | word :: rest => load (memory.place address word) (address.shift 1) rest

@[simp]
theorem get_ofWords (words : Array UInt16) (address : Fin memorySize) :
    (ofWords words).get address = words.getD address 0 := by
  simp [get, ofWords]

theorem word_eq_get (memory : Memory) (address : Fin memorySize) :
    memory.word address = memory.get address := by
  simp [word, get, Array.getD]

theorem get_put (memory : Memory) (address other : Fin memorySize) (word : UInt16) :
    (memory.put address word).get other = if address = other then word else memory.get other := by
  simp only [get, put, Fin.getElem_fin, Vector.getElem_set, Fin.val_inj]

end Memory

end AdventureMachine
