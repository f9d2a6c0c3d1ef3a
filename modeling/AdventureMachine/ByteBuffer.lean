import AdventureMachine.Bytes

/-! A growable byte buffer: storage with spare room, of which a leading part is in use. Storage
doubles when it is full, so pushes are cheap; the spare room never shows in an answer. -/
namespace AdventureMachine

/-- The least of `capacity`, twice `capacity`, … that reaches `required`. -/
def grownCapacity (capacity required : Nat) (nonempty : 0 < capacity) : Nat :=
  if required ≤ capacity then capacity
  else grownCapacity (2 * capacity) required (by omega)
termination_by required - capacity

theorem le_grownCapacity (capacity required : Nat) (nonempty : 0 < capacity) :
    required ≤ grownCapacity capacity required nonempty ∧
      capacity ≤ grownCapacity capacity required nonempty := by
  fun_induction grownCapacity with
  | case1 => omega
  | case2 => omega

/-- Storage together with the length of the part in use. -/
structure ByteBuffer where
  storage : Array UInt8
  used : Nat
  used_le : used ≤ storage.size
  nonempty : 0 < storage.size

namespace ByteBuffer

/-- An empty buffer with room for `capacity` bytes, at least one. -/
def empty (capacity : Nat) : ByteBuffer where
  storage := Array.replicate (max 1 capacity) 0
  used := 0
  used_le := by simp
  nonempty := by rw [Array.size_replicate]; omega

/-- The bytes in use. -/
def toList (buffer : ByteBuffer) : Bytes := buffer.storage.toList.take buffer.used

/-- Bytes in use. -/
def length (buffer : ByteBuffer) : Nat := buffer.used

/-- The same bytes with room for at least `required` of them. -/
def reserve (buffer : ByteBuffer) (required : Nat) : ByteBuffer :=
  if required ≤ buffer.storage.size then buffer
  else
    let capacity := grownCapacity buffer.storage.size required buffer.nonempty
    { storage := buffer.storage ++ Array.replicate (capacity - buffer.storage.size) 0
      used := buffer.used
      used_le := by simp only [Array.size_append]; have := buffer.used_le; omega
      nonempty := by simp only [Array.size_append]; have := buffer.nonempty; omega }

theorem le_size_reserve (buffer : ByteBuffer) (required : Nat) :
    required ≤ (buffer.reserve required).storage.size := by
  unfold reserve
  split
  · assumption
  · simp only [Array.size_append, Array.size_replicate]
    have := le_grownCapacity buffer.storage.size required buffer.nonempty
    omega

@[simp]
theorem used_reserve (buffer : ByteBuffer) (required : Nat) :
    (buffer.reserve required).used = buffer.used := by
  unfold reserve; split <;> rfl

@[simp]
theorem toList_reserve (buffer : ByteBuffer) (required : Nat) :
    (buffer.reserve required).toList = buffer.toList := by
  unfold reserve
  split
  · rfl
  · simp [toList, List.take_append_of_le_length buffer.used_le]

/-- Writes one byte into the spare room. -/
private def put (buffer : ByteBuffer) (byte : UInt8) (room : buffer.used < buffer.storage.size) :
    ByteBuffer where
  storage := buffer.storage.set buffer.used byte room
  used := buffer.used + 1
  used_le := by simpa using Nat.succ_le_of_lt room
  nonempty := by simpa using buffer.nonempty

private theorem toList_put (buffer : ByteBuffer) (byte : UInt8)
    (room : buffer.used < buffer.storage.size) :
    (buffer.put byte room).toList = buffer.toList ++ [byte] := by
  simp [put, toList, List.take_add_one, List.take_set_of_le, room]

/-- Adds one byte at the end. -/
def push (buffer : ByteBuffer) (byte : UInt8) : ByteBuffer :=
  if room : buffer.used < buffer.storage.size then buffer.put byte room
  else
    (buffer.reserve (buffer.used + 1)).put byte (by
      rw [used_reserve]; exact le_size_reserve buffer (buffer.used + 1))

/-- Adds a byte string at the end. -/
def append (buffer : ByteBuffer) (bytes : Bytes) : ByteBuffer :=
  bytes.foldl push (buffer.reserve (buffer.used + bytes.length))

/-- A buffer that holds `bytes`, with no spare room unless it is empty. -/
def ofList (bytes : Bytes) : ByteBuffer := (empty bytes.length).append bytes

/-- The byte at an index, if the index is in use. -/
def at? (buffer : ByteBuffer) (index : Int) : Option UInt8 :=
  if 0 ≤ index ∧ index < buffer.used then buffer.storage[index.toNat]? else none

/-- A copy of the bytes from `first` up to, not including, `last`, within the part in use. -/
def slice (buffer : ByteBuffer) (first last : Int) : Bytes :=
  (buffer.storage.extract first.toNat (min buffer.used last.toNat)).toList

/-- A copy of the bytes from `first` to the end. -/
def suffixFrom (buffer : ByteBuffer) (first : Int) : Bytes := buffer.slice first buffer.used

/-- A copy of all bytes. -/
def bytes (buffer : ByteBuffer) : Bytes := buffer.suffixFrom 0

/-- A separate buffer with the same bytes. -/
def clone (buffer : ByteBuffer) : ByteBuffer := ofList buffer.bytes

@[simp]
theorem toList_empty (capacity : Nat) : (empty capacity).toList = [] := by
  simp [empty, toList]

theorem length_toList (buffer : ByteBuffer) : buffer.toList.length = buffer.length := by
  simp [toList, length, Nat.min_eq_left buffer.used_le]

@[simp]
theorem toList_push (buffer : ByteBuffer) (byte : UInt8) :
    (buffer.push byte).toList = buffer.toList ++ [byte] := by
  unfold push
  split <;> simp [toList_put]

@[simp]
theorem toList_append (buffer : ByteBuffer) (bytes : Bytes) :
    (buffer.append bytes).toList = buffer.toList ++ bytes := by
  suffices added : ∀ start : ByteBuffer,
      (bytes.foldl push start).toList = start.toList ++ bytes by
    simp [append, added]
  induction bytes with
  | nil => simp
  | cons byte rest ih => intro start; simp [ih]

@[simp]
theorem toList_ofList (bytes : Bytes) : (ofList bytes).toList = bytes := by
  simp [ofList]

theorem slice_eq (buffer : ByteBuffer) (first last : Int) :
    buffer.slice first last = (buffer.toList.take last.toNat).drop first.toNat := by
  simp [slice, toList, List.take_take, List.drop_take, Nat.min_comm]

@[simp]
theorem suffixFrom_eq (buffer : ByteBuffer) (first : Int) :
    buffer.suffixFrom first = buffer.toList.drop first.toNat := by
  simp [suffixFrom, slice_eq, toList, List.take_take]

@[simp]
theorem bytes_eq (buffer : ByteBuffer) : buffer.bytes = buffer.toList := by
  simp [bytes]

@[simp]
theorem toList_clone (buffer : ByteBuffer) : buffer.clone.toList = buffer.toList := by
  simp [clone]

end ByteBuffer

end AdventureMachine
