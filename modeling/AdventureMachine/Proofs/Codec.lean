import AdventureMachine.Proofs.Operand
import AdventureMachine.Snapshot

/-! Reading undoes writing: sequences of fixed-width words, and the snapshots made of them. A
snapshot that was written from fields in range is read back with the same fields, or rejected for
the first stack entry that is no literal. -/
namespace AdventureMachine

theorem Memory.ext_get {memory other : Memory}
    (same : ∀ address, memory.get address = other.get address) : memory = other := by
  cases memory
  cases other
  congr 1
  apply Vector.ext
  intro index bound
  exact same ⟨index, bound⟩

theorem Registers.ext_get {registers other : Registers}
    (same : ∀ index, registers.get index = other.get index) : registers = other := by
  cases registers
  cases other
  congr 1
  apply Vector.ext
  intro index bound
  exact same ⟨index, bound⟩

namespace Bytes

theorem words_eq (width : Nat) (bytes : Bytes) :
    words width bytes = (List.range (bytes.length / width)).map fun index =>
      toNat ((bytes.drop (index * width)).take width) := by
  unfold words
  apply List.map_congr_left
  intro index _
  have span : index * width + width - index * width = width := by omega
  rw [Array.toList_extract, List.extract_eq_take_drop, span]

theorem words_short {width : Nat} {bytes : Bytes} (short : bytes.length < width) :
    words width bytes = [] := by
  rw [words_eq, Nat.div_eq_of_lt short, List.range_zero, List.map_nil]

/-- The word in front is read first and the rest goes on behind it. -/
theorem words_append {width : Nat} {block rest : Bytes} (positive : 0 < width)
    (full : block.length = width) :
    words width (block ++ rest) = toNat block :: words width rest := by
  have count : (block ++ rest).length / width = rest.length / width + 1 := by
    rw [List.length_append, full, Nat.add_comm, Nat.add_div_right _ positive]
  rw [words_eq, words_eq, count, List.range_succ_eq_map, List.map_cons, List.map_map]
  congr 1
  · rw [Nat.zero_mul, List.drop_zero, List.take_left' full]
  · apply List.map_congr_left
    intro index _
    have shifted : (index + 1) * width = width + index * width := by
      rw [Nat.succ_mul, Nat.add_comm]
    simp only [Function.comp_apply, Nat.succ_eq_add_one, shifted, ← List.drop_drop,
      List.drop_left' full]

/-- Words that fit their width are read back as they were written. -/
theorem words_flatMap_ofNat {width : Nat} (positive : 0 < width) (values : List Nat)
    (fits : ∀ value ∈ values, value < capacity width) :
    words width (values.flatMap (ofNat width)) = values := by
  induction values with
  | nil => exact words_short positive
  | cons value rest ih =>
    rw [List.flatMap_cons, words_append positive (length_ofNat width value),
      toNat_ofNat width value (fits value (by simp)),
      ih fun other member => fits other (by simp [member])]

theorem length_flatMap_ofNat (width : Nat) (values : List Nat) :
    (values.flatMap (ofNat width)).length = values.length * width := by
  induction values with
  | nil => simp
  | cons value rest ih => simp [ih, Nat.succ_mul, Nat.add_comm]

end Bytes

namespace Snapshot

/-- The layout of a snapshot in decimal, for linear arithmetic. -/
theorem layout : registersOffset = 131072 ∧ counterOffset = 131104 ∧ headerSize = 131112 ∧
    registerCount * cellSize = 32 ∧ counterSize = 8 ∧ cellSize = 4 := by
  decide

theorem field_natCast {width value : Nat} (fits : value < Bytes.capacity width) :
    field width value = Bytes.ofNat width value := by
  unfold field
  congr 1
  rw [Int.emod_eq_of_lt (Int.natCast_nonneg value) (by exact_mod_cast fits), Int.toNat_natCast]

/-- The first value above a limit is missing exactly when no value is above it. -/
theorem firstAbove?_eq_none_iff {limit : Nat} {values : List Nat} :
    firstAbove? limit values = none ↔ ∀ value ∈ values, value ≤ limit := by
  simp only [firstAbove?, Option.map_eq_none_iff, List.find?_eq_none]
  constructor
  · intro absent value member
    obtain ⟨index, bound, same⟩ := List.mem_iff_getElem.mp member
    have indexed : (value, index) ∈ values.zipIdx := by
      rw [List.mk_mem_zipIdx_iff_getElem?, List.getElem?_eq_getElem bound, same]
    simpa using absent _ indexed
  · intro below pair member
    have := below pair.1 (List.fst_mem_of_mem_zipIdx member)
    simpa using this

theorem firstAbove?_eq_some {limit index value : Nat} {values : List Nat}
    (found : firstAbove? limit values = some (index, value)) :
    values[index]? = some value ∧ limit < value := by
  unfold firstAbove? at found
  obtain ⟨pair, selected, same⟩ := Option.map_eq_some_iff.mp found
  cases same
  have member := List.mem_of_find?_eq_some selected
  have above := List.find?_some selected
  exact ⟨List.mk_mem_zipIdx_iff_getElem?.mp member, by simpa using above⟩

/-- The memory words that are written, zero behind the cells that are there. -/
def cellWords (snapshot : Snapshot) : List Nat :=
  (List.range memorySize).map fun index => (snapshot.memory.getD index 0).toNat

/-- The register words that are written, zero behind the registers that are there. -/
def registerWords (snapshot : Snapshot) : List Nat :=
  (List.range registerCount).map fun index => (snapshot.registers.getD index 0).toNat

/-- A snapshot whose counter and stack entries fit their fields. -/
structure Writable (snapshot : Snapshot) (pc : Nat) (entries : List Nat) : Prop where
  counter : snapshot.pc = pc
  counter_le : pc ≤ maxCounter
  stack : snapshot.stack = entries.map .ofNat
  entries_lt : ∀ entry ∈ entries, entry < Bytes.capacity cellSize

theorem cellWords_lt (snapshot : Snapshot) :
    ∀ word ∈ snapshot.cellWords, word < Bytes.capacity cellSize := by
  intro word member
  obtain ⟨index, _, rfl⟩ := List.mem_map.mp member
  exact Nat.lt_trans (UInt16.toNat_lt _) (by decide)

theorem registerWords_lt (snapshot : Snapshot) :
    ∀ word ∈ snapshot.registerWords, word < Bytes.capacity cellSize := by
  intro word member
  obtain ⟨index, _, rfl⟩ := List.mem_map.mp member
  exact Nat.lt_trans (UInt16.toNat_lt _) (by decide)

theorem Writable.encode_eq {snapshot : Snapshot} {pc : Nat} {entries : List Nat}
    (writable : Writable snapshot pc entries) :
    encode snapshot = snapshot.cellWords.flatMap (Bytes.ofNat cellSize) ++
      (snapshot.registerWords.flatMap (Bytes.ofNat cellSize) ++
        (Bytes.ofNat counterSize pc ++ entries.flatMap (Bytes.ofNat cellSize))) := by
  have small (word : UInt16) : field cellSize word.toNat = Bytes.ofNat cellSize word.toNat :=
    field_natCast (Nat.lt_trans (UInt16.toNat_lt word) (by decide))
  have counter : field counterSize snapshot.pc = Bytes.ofNat counterSize pc := by
    rw [writable.counter]
    exact field_natCast (Nat.lt_of_le_of_lt writable.counter_le (by decide))
  have stack : (snapshot.stack.flatMap fun entry => field cellSize entry.truncate) =
      entries.flatMap (Bytes.ofNat cellSize) := by
    rw [writable.stack, List.flatMap_map, List.flatMap_def, List.flatMap_def]
    congr 1
    apply List.map_congr_left
    intro entry member
    exact field_natCast (writable.entries_lt entry member)
  simp only [encode, counter, stack, small, cellWords, registerWords, List.flatMap_map,
    List.append_assoc]

/-- The fields in front of the stack have fixed lengths, so each of them is cut out again. -/
theorem Writable.fields {snapshot : Snapshot} {pc : Nat} {entries : List Nat}
    (writable : Writable snapshot pc entries) :
    headerSize ≤ (encode snapshot).length ∧
    (encode snapshot).take registersOffset = snapshot.cellWords.flatMap (Bytes.ofNat cellSize) ∧
    ((encode snapshot).drop registersOffset).take (registerCount * cellSize) =
      snapshot.registerWords.flatMap (Bytes.ofNat cellSize) ∧
    ((encode snapshot).drop counterOffset).take counterSize = Bytes.ofNat counterSize pc ∧
    (encode snapshot).drop headerSize = entries.flatMap (Bytes.ofNat cellSize) := by
  have cells : (snapshot.cellWords.flatMap (Bytes.ofNat cellSize)).length = registersOffset := by
    rw [Bytes.length_flatMap_ofNat, cellWords, List.length_map, List.length_range]
  have registers : (snapshot.registerWords.flatMap (Bytes.ofNat cellSize)).length =
      registerCount * cellSize := by
    rw [Bytes.length_flatMap_ofNat, registerWords, List.length_map, List.length_range]
  have counter := Bytes.length_ofNat counterSize pc
  have toCounter (bytes : Bytes) : bytes.drop counterOffset =
      (bytes.drop registersOffset).drop (registerCount * cellSize) := by rw [List.drop_drop]
  have toStack (bytes : Bytes) : bytes.drop headerSize =
      (bytes.drop counterOffset).drop counterSize := by rw [List.drop_drop]
  rw [writable.encode_eq]
  refine ⟨?_, ?_, ?_, ?_, ?_⟩
  · have limits := layout
    simp only [List.length_append, cells, registers, counter]
    omega
  · rw [List.take_left' cells]
  · rw [List.drop_left' cells, List.take_left' registers]
  · rw [toCounter, List.drop_left' cells, List.drop_left' registers, List.take_left' counter]
  · rw [toStack, toCounter, List.drop_left' cells, List.drop_left' registers,
      List.drop_left' counter]

/-- Reading a header whose fields are in range. -/
theorem readHeader_eq_ok {bytes : Bytes} {cells registers : List Nat} {pc : Nat}
    (long : headerSize ≤ bytes.length)
    (cellField : Bytes.words cellSize (bytes.take registersOffset) = cells)
    (registerField : Bytes.words cellSize
      ((bytes.drop registersOffset).take (registerCount * cellSize)) = registers)
    (counterField : Bytes.toNat ((bytes.drop counterOffset).take counterSize) = pc)
    (cells_le : ∀ word ∈ cells, word ≤ maxCell)
    (registers_le : ∀ word ∈ registers, word ≤ maxLiteral) (counter_le : pc ≤ maxCounter) :
    readHeader bytes = .ok ⟨cells, registers, pc⟩ := by
  unfold readHeader
  rw [if_neg (Nat.not_lt.mpr long), cellField, registerField, counterField]
  simp only [firstAbove?_eq_none_iff.mpr cells_le, firstAbove?_eq_none_iff.mpr registers_le]
  rw [if_neg (Nat.not_lt.mpr counter_le)]

theorem readHeader_ok {bytes : Bytes} {header : Header} (read : readHeader bytes = .ok header) :
    (∀ word ∈ header.registers, word ≤ maxLiteral) ∧ header.pc ≤ maxCounter := by
  unfold readHeader at read
  split at read
  · cases read
  · simp only at read
    split at read
    · cases read
    · split at read
      · cases read
      · rename_i absent
        split at read
        · cases read
        · rename_i bound
          cases read
          exact ⟨firstAbove?_eq_none_iff.mp absent, Nat.not_lt.mp bound⟩

/-- Whatever is read from a snapshot is in range. -/
theorem decode_ok {bytes : Bytes} {snapshot : Snapshot} (decoded : decode bytes = .ok snapshot) :
    (∀ value ∈ snapshot.registers, value.toNat ≤ maxLiteral) ∧
      (∀ entry ∈ snapshot.stack, entry.UpTo maxLiteral) ∧
      ∃ pc : Nat, snapshot.pc = pc ∧ pc ≤ maxCounter := by
  unfold decode loggedDecode at decoded
  cases read : readHeader bytes with
  | error error =>
    rw [read] at decoded
    cases decoded
  | ok header =>
    obtain ⟨registers, counter⟩ := readHeader_ok read
    simp only [read, readStack] at decoded
    split at decoded
    · cases decoded
    · rename_i absent
      cases decoded
      refine ⟨?_, ?_, header.pc, rfl, counter⟩
      · intro value member
        obtain ⟨word, present, rfl⟩ := List.mem_map.mp (List.mem_toArray.mp member)
        have bound := registers word present
        have limits := word_limits
        rw [UInt16.toNat_ofNat_of_lt' (by omega)]
        exact bound
      · intro entry member
        obtain ⟨word, present, rfl⟩ := List.mem_map.mp member
        exact ⟨word, rfl, firstAbove?_eq_none_iff.mp absent word present⟩

/-- Behind a header the stack entries decide. -/
theorem decode_of_header {bytes : Bytes} {cells registers entries : List Nat} {pc : Nat}
    (header : readHeader bytes = .ok ⟨cells, registers, pc⟩)
    (stackField : Bytes.words cellSize (bytes.drop headerSize) = entries) :
    decode bytes =
      match firstAbove? maxLiteral entries with
      | some (index, value) => .error (.snapshotStack index value (headerSize + index * cellSize))
      | none => .ok
        { memory := (cells.map .ofNat).toArray
          registers := (registers.map .ofNat).toArray
          stack := entries.map .ofNat
          pc } := by
  have behind : decode bytes = readStack ⟨cells, registers, pc⟩ (bytes.drop headerSize) := by
    simp only [decode, loggedDecode, header]
  rw [behind]
  subst stackField
  rfl

/-- A snapshot written from fields in range is read back as it was, its memory and registers
brought to their full length, unless a stack entry is no literal: the lowest such entry is then
reported. -/
theorem Writable.decode_encode {snapshot : Snapshot} {pc : Nat} {entries : List Nat}
    (writable : Writable snapshot pc entries)
    (registers : ∀ word ∈ snapshot.registerWords, word ≤ maxLiteral) :
    decode (encode snapshot) =
      match firstAbove? maxLiteral entries with
      | some (index, value) => .error (.snapshotStack index value (headerSize + index * cellSize))
      | none => .ok
        { memory := (snapshot.cellWords.map .ofNat).toArray
          registers := (snapshot.registerWords.map .ofNat).toArray
          stack := entries.map .ofNat
          pc } := by
  obtain ⟨long, cellField, registerField, counterField, stackField⟩ := writable.fields
  have cells : ∀ word ∈ snapshot.cellWords, word ≤ maxCell := by
    intro word member
    obtain ⟨index, _, rfl⟩ := List.mem_map.mp member
    have bound := UInt16.toNat_lt (snapshot.memory.getD index 0)
    simp only [maxCell]
    omega
  have header : readHeader (encode snapshot) =
      .ok ⟨snapshot.cellWords, snapshot.registerWords, pc⟩ := by
    refine readHeader_eq_ok long ?_ ?_ ?_ cells registers writable.counter_le
    · rw [cellField]
      exact Bytes.words_flatMap_ofNat (by decide) _ (cellWords_lt snapshot)
    · rw [registerField]
      exact Bytes.words_flatMap_ofNat (by decide) _ (registerWords_lt snapshot)
    · rw [counterField]
      exact Bytes.toNat_ofNat _ _ (Nat.lt_of_le_of_lt writable.counter_le (by decide))
  apply decode_of_header header
  rw [stackField]
  exact Bytes.words_flatMap_ofNat (by decide) entries writable.entries_lt

theorem ofWords_cellWords (snapshot : Snapshot) :
    Memory.ofWords (snapshot.cellWords.map .ofNat).toArray = .ofWords snapshot.memory := by
  apply Memory.ext_get
  intro address
  rw [Memory.get_ofWords, Memory.get_ofWords]
  simp [cellWords, Array.getD_eq_getD_getElem?]

theorem ofValues_registerWords (snapshot : Snapshot) :
    Registers.ofValues (snapshot.registerWords.map .ofNat).toArray =
      .ofValues snapshot.registers := by
  apply Registers.ext_get
  intro index
  rw [Registers.get_ofValues, Registers.get_ofValues]
  simp [registerWords, Array.getD_eq_getD_getElem?]

end Snapshot

theorem Memory.ofWords_cells (memory : Memory) : .ofWords memory.cells.toArray = memory := by
  apply Memory.ext_get
  intro address
  rw [Memory.get_ofWords]
  exact memory.word_eq_get address

theorem Registers.ofValues_values (registers : Registers) :
    .ofValues registers.values.toArray = registers := by
  apply Registers.ext_get
  intro index
  rw [Registers.get_ofValues]
  simp [get, Array.getD]

namespace State

/-- A state in range whose program counter fits the field of a snapshot. -/
structure Savable (state : State) : Prop extends Bounded state where
  counter : state.pc.UpTo Snapshot.maxCounter

/-- The stack as it is written, bottom first. -/
def entries (state : State) : List Nat := state.stack.reverse.map fun entry => entry.truncate.toNat

theorem Bounded.map_entries {state : State} (bounded : state.Bounded) :
    state.entries.map .ofNat = state.stack.reverse := by
  rw [entries, List.map_map]
  refine (List.map_congr_left ?_).trans (List.map_id _)
  intro entry member
  obtain ⟨value, rfl, _⟩ := bounded.stack entry (List.mem_reverse.mp member)
  rfl

theorem mem_entries {state : State} {value : Nat} (bounded : state.Bounded) :
    value ∈ state.entries ↔ .ofNat value ∈ state.stack := by
  have reversed : .ofNat value ∈ state.stack ↔ .ofNat value ∈ state.entries.map Number.ofNat := by
    rw [bounded.map_entries, List.mem_reverse]
  rw [reversed, List.mem_map]
  constructor
  · intro member
    exact ⟨value, member, rfl⟩
  · rintro ⟨other, member, same⟩
    cases same
    exact member

/-- A state that fits the fields is saved, and its bytes restore it. Only the address behind memory
on the stack is in the way: reading rejects the lowest such entry. -/
theorem Savable.decode_save {state : State} (savable : state.Savable) :
    ∃ bytes, state.save = .ok bytes ∧
      (.ofNat memorySize ∉ state.stack →
        (Snapshot.decode bytes).map Snapshot.toState = .ok state) ∧
      (.ofNat memorySize ∈ state.stack →
        ∃ index, state.stack.reverse[index]? = some (.ofNat memorySize) ∧
          Snapshot.decode bytes = .error (.snapshotStack index memorySize
            (Snapshot.headerSize + index * Snapshot.cellSize))) := by
  have limits := word_limits
  obtain ⟨pc, counter, counter_le⟩ := savable.counter
  have bound : ∀ entry ∈ state.entries, entry ≤ memorySize := by
    intro entry member
    obtain ⟨value, same, le⟩ := savable.stack _ ((mem_entries savable.toBounded).mp member)
    cases same
    exact le
  let snapshot : Snapshot :=
    { memory := state.memory.cells.toArray
      registers := state.registers.values.toArray
      stack := state.stack.reverse
      pc := pc }
  have saved : state.save = .ok snapshot.encode := by
    simp only [save, State.snapshot, counter]
    rfl
  have writable : snapshot.Writable pc state.entries :=
    ⟨rfl, counter_le, savable.map_entries.symm, fun entry member =>
      Nat.lt_of_le_of_lt (bound entry member) (by decide)⟩
  have registers : ∀ word ∈ snapshot.registerWords, word ≤ maxLiteral := by
    intro word member
    obtain ⟨index, present, rfl⟩ := List.mem_map.mp member
    have held := savable.registers ⟨index, List.mem_range.mp present⟩
    rw [← state.registers.ofValues_values, Registers.get_ofValues] at held
    exact held
  have decoded := writable.decode_encode registers
  refine ⟨snapshot.encode, saved, ?_, ?_⟩
  · intro absent
    have literals : Snapshot.firstAbove? maxLiteral state.entries = none := by
      rw [Snapshot.firstAbove?_eq_none_iff]
      intro entry member
      have different : entry ≠ memorySize := by
        rintro rfl
        exact absent ((mem_entries savable.toBounded).mp member)
      have := bound entry member
      omega
    rw [decoded, literals]
    simp only [Except.map, Snapshot.toState, snapshot.ofWords_cellWords,
      snapshot.ofValues_registerWords, savable.map_entries, List.reverse_reverse]
    have memory : Memory.ofWords snapshot.memory = state.memory := state.memory.ofWords_cells
    have held : Registers.ofValues snapshot.registers = state.registers :=
      state.registers.ofValues_values
    have place : Number.whole (pc : Int) = state.pc := counter.symm
    rw [memory, held, place]
  · intro present
    cases above : Snapshot.firstAbove? maxLiteral state.entries with
    | none =>
      have := Snapshot.firstAbove?_eq_none_iff.mp above _
        ((mem_entries savable.toBounded).mpr present)
      omega
    | some pair =>
      obtain ⟨index, value⟩ := pair
      obtain ⟨found, exceeds⟩ := Snapshot.firstAbove?_eq_some above
      have := bound value (List.mem_of_getElem? found)
      obtain rfl : value = memorySize := by omega
      refine ⟨index, ?_, by rw [decoded, above]⟩
      rw [← savable.map_entries, List.getElem?_map, found]
      rfl

end State

end AdventureMachine
