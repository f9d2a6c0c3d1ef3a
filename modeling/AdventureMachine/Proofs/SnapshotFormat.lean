import AdventureMachine.Proofs.Codec

/-! The format of snapshots, field by field. Bytes are accepted exactly when they reach the stack
and no field is above its limit; a rejection names the offset of the first field that is. Writing
what was read gives back the bytes, and reading what was written gives back the fields. -/
namespace AdventureMachine

namespace Bytes

/-- The little-endian word of `width` bytes at an offset. -/
def wordAt (bytes : Bytes) (offset width : Nat) : Nat := toNat ((bytes.drop offset).take width)

theorem ofNat_toNat (bytes : Bytes) : ofNat bytes.length (toNat bytes) = bytes := by
  induction bytes with
  | nil => rfl
  | cons byte rest ih =>
    have small := byte.toNat_lt
    have low : (byte.toNat + 256 * toNat rest) % 256 = byte.toNat := by omega
    have high : (byte.toNat + 256 * toNat rest) / 256 = toNat rest := by omega
    have head : UInt8.ofNat (byte.toNat + 256 * toNat rest) = byte := by
      apply UInt8.toNat_inj.mp
      rw [UInt8.toNat_ofNat', low]
    rw [List.length_cons, toNat, ofNat, head, high, ih]

/-- Writing the words that were read gives back the bytes, but for a rest that makes no word. -/
theorem flatMap_ofNat_words {width : Nat} (positive : 0 < width) (bytes : Bytes) :
    (words width bytes).flatMap (ofNat width) = bytes.take (bytes.length / width * width) := by
  induction held : bytes.length / width generalizing bytes with
  | zero =>
    have short : bytes.length < width := by
      rcases Nat.div_eq_zero_iff.mp held with zero | short
      · omega
      · exact short
    rw [words_short short, Nat.zero_mul, List.take_zero, List.flatMap_nil]
  | succ count ih =>
    have long : width ≤ bytes.length := by
      apply Nat.le_of_not_lt
      intro short
      rw [Nat.div_eq_of_lt short] at held
      cases held
    have full : (bytes.take width).length = width := List.length_take_of_le long
    have fewer : (bytes.drop width).length / width = count := by
      have split := Nat.div_eq_sub_div positive long
      rw [List.length_drop]
      omega
    have block : ofNat width (toNat (bytes.take width)) = bytes.take width := by
      have same := ofNat_toNat (bytes.take width)
      rwa [full] at same
    have total : (count + 1) * width = width + count * width := by
      rw [Nat.succ_mul, Nat.add_comm]
    calc (words width bytes).flatMap (ofNat width)
        = (words width (bytes.take width ++ bytes.drop width)).flatMap (ofNat width) := by
          rw [List.take_append_drop]
      _ = bytes.take width ++ (words width (bytes.drop width)).flatMap (ofNat width) := by
          rw [words_append positive full, List.flatMap_cons, block]
      _ = bytes.take width ++ (bytes.drop width).take (count * width) := by
          rw [ih _ fewer]
      _ = bytes.take ((count + 1) * width) := by rw [total, List.take_add]

/-- The words of a stretch of bytes, by their offsets. -/
theorem words_slice {width count : Nat} (bytes : Bytes) (offset : Nat) (positive : 0 < width)
    (inside : offset + count * width ≤ bytes.length) :
    words width ((bytes.drop offset).take (count * width)) =
      (List.range count).map fun index => bytes.wordAt (offset + index * width) width := by
  have length : ((bytes.drop offset).take (count * width)).length = count * width := by
    rw [List.length_take, List.length_drop]
    omega
  rw [words_eq, length, Nat.mul_div_cancel _ positive]
  apply List.map_congr_left
  intro index member
  have room : index * width + width ≤ count * width := by
    rw [← Nat.succ_mul]
    exact Nat.mul_le_mul_right width (List.mem_range.mp member)
  rw [wordAt, List.drop_take, List.drop_drop, List.take_take, Nat.min_eq_left (by omega)]

end Bytes

namespace Snapshot

/-- A field: where it stands, how wide it is, and the largest value it may hold. -/
structure Field where
  offset : Nat
  width : Nat
  limit : Nat

namespace Field

/-- Whether a field holds more than it may. -/
def offends (bytes : Bytes) (field : Field) : Bool :=
  field.limit < bytes.wordAt field.offset field.width

/-- Fields of one kind that follow each other. -/
def row (offset width limit count : Nat) : List Field :=
  (List.range count).map fun index => ⟨offset + index * width, width, limit⟩

theorem forall_row {bytes : Bytes} {offset width limit count : Nat} :
    (∀ field ∈ row offset width limit count, field.offends bytes = false) ↔
      ∀ index < count, bytes.wordAt (offset + index * width) width ≤ limit := by
  simp [row, offends]

end Field

/-- The fields of a snapshot of so many bytes: memory, registers, program counter, stack. -/
def fields (length : Nat) : List Field :=
  Field.row 0 4 0xffff 32768 ++ Field.row 131072 4 0x7fff 8 ++ [⟨131104, 8, 0xffffffff⟩] ++
    Field.row 131112 4 0x7fff ((length - 131112) / 4)

theorem zipIdx_map_range (value : Nat → Nat) (count : Nat) :
    ((List.range count).map value).zipIdx =
      (List.range count).map fun index => (value index, index) := by
  apply List.ext_getElem?
  intro index
  by_cases inside : index < count
  · simp [inside]
  · simp [inside]

/-- The first value above a limit stands in the first field of a row that offends. -/
theorem find?_row (bytes : Bytes) (offset width limit count : Nat) :
    (Field.row offset width limit count).find? (Field.offends bytes) =
      (firstAbove? limit ((List.range count).map fun index =>
        bytes.wordAt (offset + index * width) width)).map
        fun pair => ⟨offset + pair.1 * width, width, limit⟩ := by
  rw [firstAbove?, zipIdx_map_range, Field.row, List.find?_map, List.find?_map, Option.map_map,
    Option.map_map]
  rfl

section Reading

variable {bytes : Bytes}

/-- The memory words of a byte string. -/
def cellsOf (bytes : Bytes) : List Nat :=
  (List.range memorySize).map fun index => bytes.wordAt (0 + index * cellSize) cellSize

/-- The register words of a byte string. -/
def registersOf (bytes : Bytes) : List Nat :=
  (List.range registerCount).map fun index =>
    bytes.wordAt (registersOffset + index * cellSize) cellSize

/-- The stack words of a byte string. -/
def entriesOf (bytes : Bytes) : List Nat :=
  (List.range ((bytes.length - headerSize) / cellSize)).map fun index =>
    bytes.wordAt (headerSize + index * cellSize) cellSize

theorem words_cells (long : headerSize ≤ bytes.length) :
    Bytes.words cellSize (bytes.take registersOffset) = cellsOf bytes := by
  have inside : 0 + memorySize * cellSize ≤ bytes.length := Nat.le_trans (by decide) long
  exact Bytes.words_slice bytes 0 (by decide) inside

theorem words_registers (long : headerSize ≤ bytes.length) :
    Bytes.words cellSize ((bytes.drop registersOffset).take (registerCount * cellSize)) =
      registersOf bytes := by
  have inside : registersOffset + registerCount * cellSize ≤ bytes.length :=
    Nat.le_trans (by decide) long
  exact Bytes.words_slice bytes registersOffset (by decide) inside

theorem words_entries (long : headerSize ≤ bytes.length) :
    Bytes.words cellSize (bytes.drop headerSize) = entriesOf bytes := by
  have room : headerSize + (bytes.length - headerSize) / cellSize * cellSize ≤ bytes.length := by
    have := Nat.div_mul_le_self (bytes.length - headerSize) cellSize
    omega
  have sliced := Bytes.words_slice bytes headerSize (by decide) room
  rw [entriesOf, ← sliced, Bytes.words_eq, Bytes.words_eq]
  have length : ((bytes.drop headerSize).take
      ((bytes.length - headerSize) / cellSize * cellSize)).length / cellSize =
        (bytes.drop headerSize).length / cellSize := by
    rw [List.length_take, List.length_drop,
      Nat.min_eq_left (Nat.div_mul_le_self (bytes.length - headerSize) cellSize),
      Nat.mul_div_cancel _ (by decide)]
  rw [length]
  apply List.map_congr_left
  intro index member
  have inside : index * cellSize + cellSize ≤ (bytes.length - headerSize) / cellSize * cellSize := by
    rw [← Nat.succ_mul]
    rw [List.mem_range, List.length_drop] at member
    exact Nat.mul_le_mul_right cellSize member
  rw [List.drop_take, List.take_take, Nat.min_eq_left (by omega)]

section Verdict

variable (long : headerSize ≤ bytes.length)

include long

theorem decode_of_cell {index value : Nat}
    (cells : firstAbove? maxCell (cellsOf bytes) = some (index, value)) :
    decode bytes = .error (.snapshotCell index value (index * cellSize)) := by
  simp only [decode, loggedDecode, readHeader, Nat.not_lt.mpr long, ↓reduceIte, words_cells long,
    cells, Logged.quiet]

theorem decode_of_register {index value : Nat} (cells : firstAbove? maxCell (cellsOf bytes) = none)
    (registers : firstAbove? maxLiteral (registersOf bytes) = some (index, value)) :
    decode bytes =
      .error (.snapshotRegister index value (registersOffset + index * cellSize)) := by
  simp only [decode, loggedDecode, readHeader, Nat.not_lt.mpr long, ↓reduceIte, words_cells long,
    cells, words_registers long, registers, Logged.quiet]

theorem decode_of_counter (cells : firstAbove? maxCell (cellsOf bytes) = none)
    (registers : firstAbove? maxLiteral (registersOf bytes) = none)
    (above : maxCounter < bytes.wordAt counterOffset counterSize) :
    decode bytes =
      .error (.snapshotCounter (bytes.wordAt counterOffset counterSize) counterOffset) := by
  have counter : Bytes.toNat ((bytes.drop counterOffset).take counterSize) =
      bytes.wordAt counterOffset counterSize := rfl
  simp only [decode, loggedDecode, readHeader, Nat.not_lt.mpr long, ↓reduceIte, words_cells long,
    cells, words_registers long, registers, counter, above, Logged.quiet]

theorem decode_of_entries (cells : firstAbove? maxCell (cellsOf bytes) = none)
    (registers : firstAbove? maxLiteral (registersOf bytes) = none)
    (below : bytes.wordAt counterOffset counterSize ≤ maxCounter) :
    decode bytes =
      match firstAbove? maxLiteral (entriesOf bytes) with
      | some (index, value) => .error (.snapshotStack index value (headerSize + index * cellSize))
      | none => .ok
        { memory := ((cellsOf bytes).map .ofNat).toArray
          registers := ((registersOf bytes).map .ofNat).toArray
          stack := (entriesOf bytes).map .ofNat
          pc := bytes.wordAt counterOffset counterSize } :=
  decode_of_header
    (readHeader_eq_ok long (words_cells long) (words_registers long) rfl
      (firstAbove?_eq_none_iff.mp cells) (firstAbove?_eq_none_iff.mp registers) below)
    (words_entries long)

end Verdict

theorem find?_fields (bytes : Bytes) :
    (fields bytes.length).find? (Field.offends bytes) =
      ((((firstAbove? maxCell (cellsOf bytes)).map fun pair =>
          ⟨0 + pair.1 * cellSize, cellSize, maxCell⟩).or
        ((firstAbove? maxLiteral (registersOf bytes)).map fun pair =>
          ⟨registersOffset + pair.1 * cellSize, cellSize, maxLiteral⟩)).or
        (if maxCounter < bytes.wordAt counterOffset counterSize then
          some ⟨counterOffset, counterSize, maxCounter⟩ else none)).or
        ((firstAbove? maxLiteral (entriesOf bytes)).map fun pair =>
          ⟨headerSize + pair.1 * cellSize, cellSize, maxLiteral⟩) := by
  have counter : List.find? (Field.offends bytes) [⟨131104, 8, 0xffffffff⟩] =
      if maxCounter < bytes.wordAt counterOffset counterSize then
        some ⟨counterOffset, counterSize, maxCounter⟩ else none := by
    by_cases above : maxCounter < bytes.wordAt counterOffset counterSize
    · rw [if_pos above]
      exact List.find?_cons_of_pos (decide_eq_true above)
    · rw [if_neg above]
      exact List.find?_cons_of_neg (fun offends => above (of_decide_eq_true offends))
  simp only [fields, List.find?_append, find?_row, counter]
  rfl

/-- The error of a rejection tells an offset. -/
def Names (error : Error) (offset : Nat) : Prop :=
  error.kind = "SnapshotError" ∧ error.context? = some [("offset", .count offset)]

theorem names_rejection (index value offset : Nat) :
    Names (.snapshotCell index value offset) offset ∧
      Names (.snapshotRegister index value offset) offset ∧
      Names (.snapshotCounter value offset) offset ∧
      Names (.snapshotStack index value offset) offset :=
  ⟨⟨rfl, rfl⟩, ⟨rfl, rfl⟩, ⟨rfl, rfl⟩, ⟨rfl, rfl⟩⟩

/-- Bytes that reach the stack are rejected for the first field above its limit. -/
theorem decode_of_offending (long : headerSize ≤ bytes.length) {field : Field}
    (found : (fields bytes.length).find? (Field.offends bytes) = some field) :
    ∃ error, decode bytes = .error error ∧ Names error field.offset := by
  rw [find?_fields] at found
  cases cells : firstAbove? maxCell (cellsOf bytes) with
  | some pair =>
    simp only [cells, Option.map_some, Option.some_or, Option.some.injEq, Nat.zero_add] at found
    subst found
    exact ⟨_, decode_of_cell long cells, (names_rejection _ _ _).1⟩
  | none =>
    cases registers : firstAbove? maxLiteral (registersOf bytes) with
    | some pair =>
      simp only [cells, registers, Option.map_some, Option.map_none, Option.none_or, Option.some_or,
        Option.some.injEq] at found
      subst found
      exact ⟨_, decode_of_register long cells registers, (names_rejection _ _ _).2.1⟩
    | none =>
      simp only [cells, registers, Option.map_none, Option.none_or] at found
      by_cases above : maxCounter < bytes.wordAt counterOffset counterSize
      · rw [if_pos above, Option.some_or] at found
        cases found
        exact ⟨_, decode_of_counter long cells registers above, (names_rejection 0 _ _).2.2.1⟩
      · rw [if_neg above, Option.none_or] at found
        obtain ⟨pair, entries, rfl⟩ := Option.map_eq_some_iff.mp found
        have decoded := decode_of_entries long cells registers (Nat.not_lt.mp above)
        rw [entries] at decoded
        exact ⟨_, decoded, (names_rejection _ _ _).2.2.2⟩

theorem inoffensive (found : (fields bytes.length).find? (Field.offends bytes) = none) :
    firstAbove? maxCell (cellsOf bytes) = none ∧
      firstAbove? maxLiteral (registersOf bytes) = none ∧
      bytes.wordAt counterOffset counterSize ≤ maxCounter ∧
      firstAbove? maxLiteral (entriesOf bytes) = none := by
  rw [find?_fields] at found
  simp only [Option.or_eq_none_iff, Option.map_eq_none_iff, ite_eq_right_iff, reduceCtorEq,
    imp_false] at found
  obtain ⟨⟨⟨cells, registers⟩, counter⟩, entries⟩ := found
  exact ⟨cells, registers, Nat.not_lt.mp counter, entries⟩

/-- Bytes that reach the stack are accepted when no field is above its limit. -/
theorem decode_of_inoffensive (long : headerSize ≤ bytes.length)
    (found : (fields bytes.length).find? (Field.offends bytes) = none) :
    decode bytes = .ok
      { memory := ((cellsOf bytes).map .ofNat).toArray
        registers := ((registersOf bytes).map .ofNat).toArray
        stack := (entriesOf bytes).map .ofNat
        pc := bytes.wordAt counterOffset counterSize } := by
  obtain ⟨cells, registers, counter, entries⟩ := inoffensive found
  rw [decode_of_entries long cells registers counter, entries]

theorem find?_fields_eq_none_iff (bytes : Bytes) :
    (fields bytes.length).find? (Field.offends bytes) = none ↔
      (∀ index < 32768, bytes.wordAt (index * 4) 4 ≤ 0xffff) ∧
      (∀ index < 8, bytes.wordAt (131072 + index * 4) 4 ≤ 0x7fff) ∧
      bytes.wordAt 131104 8 ≤ 0xffffffff ∧
      ∀ index < (bytes.length - 131112) / 4, bytes.wordAt (131112 + index * 4) 4 ≤ 0x7fff := by
  rw [List.find?_eq_none]
  simp only [fields, List.mem_append, or_imp, forall_and, Bool.not_eq_true, Field.forall_row,
    Nat.zero_add, List.mem_singleton, forall_eq, and_assoc]
  simp only [Field.offends, decide_eq_false_iff_not, Nat.not_lt]

end Reading

/-- Words in range, kept in an array of their own, are the words that are written again. -/
theorem map_getD_ofNat {count : Nat} {words : List Nat} (length : words.length = count)
    (small : ∀ word ∈ words, word ≤ maxCell) :
    ((List.range count).map fun index =>
      (((words.map UInt16.ofNat).toArray).getD index 0).toNat) = words := by
  apply List.ext_getElem
  · simp [length]
  · intro index _ inside
    have bound := small words[index] (List.getElem_mem inside)
    have limits := word_limits
    simp only [maxCell] at bound
    simp only [List.getElem_map, List.getElem_range, Array.getD_eq_getD_getElem?,
      List.getElem?_toArray, List.getElem?_map, List.getElem?_eq_getElem inside, Option.map_some,
      Option.getD_some]
    exact UInt16.toNat_ofNat_of_lt' (by omega)

section Writing

variable {bytes : Bytes} (long : headerSize ≤ bytes.length)

include long

theorem flatMap_cellsOf :
    (cellsOf bytes).flatMap (Bytes.ofNat cellSize) = bytes.take registersOffset := by
  have limits := layout
  have length : (bytes.take registersOffset).length = registersOffset :=
    List.length_take_of_le (by omega)
  rw [← words_cells long, Bytes.flatMap_ofNat_words (by decide), length,
    Nat.mul_div_cancel _ (by decide), List.take_take, Nat.min_self]

theorem flatMap_registersOf :
    (registersOf bytes).flatMap (Bytes.ofNat cellSize) =
      (bytes.drop registersOffset).take (registerCount * cellSize) := by
  have limits := layout
  have length : ((bytes.drop registersOffset).take (registerCount * cellSize)).length =
      registerCount * cellSize := by
    apply List.length_take_of_le
    rw [List.length_drop]
    omega
  rw [← words_registers long, Bytes.flatMap_ofNat_words (by decide), length,
    Nat.mul_div_cancel _ (by decide), List.take_take, Nat.min_self]

theorem ofNat_counter :
    Bytes.ofNat counterSize (bytes.wordAt counterOffset counterSize) =
      (bytes.drop counterOffset).take counterSize := by
  have limits := layout
  have length : ((bytes.drop counterOffset).take counterSize).length = counterSize := by
    apply List.length_take_of_le
    rw [List.length_drop]
    omega
  have same := Bytes.ofNat_toNat ((bytes.drop counterOffset).take counterSize)
  rwa [length] at same

theorem flatMap_entriesOf :
    (entriesOf bytes).flatMap (Bytes.ofNat cellSize) =
      (bytes.drop headerSize).take ((bytes.length - headerSize) / cellSize * cellSize) := by
  rw [← words_entries long, Bytes.flatMap_ofNat_words (by decide), List.length_drop]

/-- Writing an accepted snapshot gives back its bytes, but for a rest that makes no stack entry. -/
theorem encode_of_accepted {snapshot : Snapshot} (decoded : decode bytes = .ok snapshot) :
    encode snapshot = bytes.take (headerSize + (bytes.length - headerSize) / cellSize * cellSize) := by
  cases found : (fields bytes.length).find? (Field.offends bytes) with
  | some field =>
    obtain ⟨error, failed, _⟩ := decode_of_offending long found
    rw [failed] at decoded
    cases decoded
  | none =>
    obtain ⟨cells, registers, counter, entries⟩ := inoffensive found
    rw [decode_of_inoffensive long found] at decoded
    have same := Except.ok.inj decoded
    have cellWords : snapshot.cellWords = cellsOf bytes := by
      rw [← same]
      exact map_getD_ofNat (by rw [cellsOf, List.length_map, List.length_range])
        (firstAbove?_eq_none_iff.mp cells)
    have registerWords : snapshot.registerWords = registersOf bytes := by
      rw [← same]
      refine map_getD_ofNat (by rw [registersOf, List.length_map, List.length_range]) ?_
      intro word member
      exact Nat.le_trans (firstAbove?_eq_none_iff.mp registers word member) (by decide)
    have writable : Writable snapshot (bytes.wordAt counterOffset counterSize) (entriesOf bytes) := by
      refine ⟨by rw [← same], counter, by rw [← same], ?_⟩
      intro entry member
      exact Nat.lt_of_le_of_lt (firstAbove?_eq_none_iff.mp entries entry member) (by decide)
    rw [writable.encode_eq, cellWords, registerWords, flatMap_cellsOf long,
      flatMap_registersOf long, ofNat_counter long, flatMap_entriesOf long, List.take_add,
      List.take_add, List.take_add]
    simp only [List.append_assoc]

end Writing

/-- An array brought to a given size: cut off, or filled up with zeros. -/
def resized (size : Nat) (words : Array UInt16) : Array UInt16 :=
  ((words.toList ++ List.replicate size 0).take size).toArray

theorem getElem?_resized {size index : Nat} (words : Array UInt16) (inside : index < size) :
    (words.toList ++ List.replicate size 0)[index]? = some (words.getD index 0) := by
  by_cases held : index < words.size
  · rw [List.getElem?_append_left held]
    simp [held, Array.getD_eq_getD_getElem?]
  · rw [List.getElem?_append_right (Nat.not_lt.mp held), List.getElem?_replicate,
      if_pos (Nat.lt_of_le_of_lt (Nat.sub_le _ _) inside)]
    simp [held, Array.getD_eq_getD_getElem?]

theorem map_getD_resized (size : Nat) (words : Array UInt16) :
    (((List.range size).map fun index => (words.getD index 0).toNat).map UInt16.ofNat).toArray =
      resized size words := by
  apply Array.ext'
  apply List.ext_getElem?
  intro index
  by_cases inside : index < size
  · rw [resized, List.getElem?_take_of_lt inside, getElem?_resized words inside]
    simp [inside]
  · simp [resized, inside]

/-- A snapshot with fields in range is read back as it was written, brought to its full size. -/
theorem decode_encode {snapshot : Snapshot} {pc : Nat} {entries : List Nat}
    (writable : Writable snapshot pc entries)
    (registers : ∀ value ∈ snapshot.registers, value.toNat ≤ maxLiteral)
    (literals : ∀ entry ∈ entries, entry ≤ maxLiteral) :
    decode (encode snapshot) = .ok
      { memory := resized memorySize snapshot.memory
        registers := resized registerCount snapshot.registers
        stack := snapshot.stack
        pc := snapshot.pc } := by
  have words : ∀ word ∈ snapshot.registerWords, word ≤ maxLiteral := by
    intro word member
    obtain ⟨index, _, rfl⟩ := List.mem_map.mp member
    rw [Array.getD_eq_getD_getElem?]
    cases held : snapshot.registers[index]? with
    | none => exact Nat.zero_le _
    | some value => exact registers value (Array.mem_of_getElem? held)
  rw [writable.decode_encode words, firstAbove?_eq_none_iff.mpr literals, writable.counter,
    writable.stack, cellWords, registerWords, map_getD_resized, map_getD_resized]

/-- Bytes are accepted exactly when they reach the stack and no field is above its limit. -/
theorem exists_decode_iff (bytes : Bytes) :
    (∃ snapshot, decode bytes = .ok snapshot) ↔ headerSize ≤ bytes.length ∧
      (fields bytes.length).find? (Field.offends bytes) = none := by
  constructor
  · rintro ⟨snapshot, decoded⟩
    have long : headerSize ≤ bytes.length := by
      apply Nat.le_of_not_lt
      intro short
      rw [decode, loggedDecode, readHeader, if_pos short] at decoded
      cases decoded
    refine ⟨long, ?_⟩
    cases found : (fields bytes.length).find? (Field.offends bytes) with
    | none => rfl
    | some field =>
      obtain ⟨error, failed, _⟩ := decode_of_offending long found
      rw [failed] at decoded
      cases decoded
  · rintro ⟨long, found⟩
    exact ⟨_, decode_of_inoffensive long found⟩

end Snapshot

/-- The snapshot codec. Fields in range are read back as they were written, with memory and
registers brought to their full size. Bytes are accepted exactly when they reach the stack and no
field is above its limit. Writing what was accepted gives back the bytes but for at most three at
the end, and a rejection of bytes that reach the stack names the first field above its limit. -/
theorem Snapshot.decode_exact :
    (∀ snapshot : Snapshot,
      0 ≤ snapshot.pc ∧ snapshot.pc ≤ 0xffffffff →
      (∀ value ∈ snapshot.registers, value.toNat ≤ 32767) →
      (∀ entry ∈ snapshot.stack, entry.UpTo 32767) →
      decode (encode snapshot) = .ok
        { memory := resized 32768 snapshot.memory
          registers := resized 8 snapshot.registers
          stack := snapshot.stack
          pc := snapshot.pc }) ∧
    ∀ bytes : Bytes,
      ((∃ snapshot, decode bytes = .ok snapshot) ↔
        131112 ≤ bytes.length ∧
        (∀ index < 32768, bytes.wordAt (index * 4) 4 ≤ 0xffff) ∧
        (∀ index < 8, bytes.wordAt (131072 + index * 4) 4 ≤ 0x7fff) ∧
        bytes.wordAt 131104 8 ≤ 0xffffffff ∧
        ∀ index < (bytes.length - 131112) / 4, bytes.wordAt (131112 + index * 4) 4 ≤ 0x7fff) ∧
      (∀ snapshot, decode bytes = .ok snapshot →
        encode snapshot = bytes.take (bytes.length - (bytes.length - 131112) % 4)) ∧
      (131112 ≤ bytes.length → ∀ error, decode bytes = .error error →
        ∃ field, (fields bytes.length).find? (Field.offends bytes) = some field ∧
          error.kind = "SnapshotError" ∧
          error.context? = some [("offset", .count field.offset)]) := by
  have header : headerSize = 131112 := rfl
  refine ⟨?_, fun bytes => ⟨?_, ?_, ?_⟩⟩
  · rintro snapshot ⟨positive, small⟩ registers stack
    obtain ⟨pc, counter⟩ := Int.eq_ofNat_of_zero_le positive
    let entries := snapshot.stack.map fun entry => entry.truncate.toNat
    have written : snapshot.stack = entries.map .ofNat := by
      rw [List.map_map]
      refine (List.map_id _).symm.trans (List.map_congr_left ?_)
      intro entry member
      obtain ⟨value, rfl, _⟩ := stack entry member
      rfl
    have literals : ∀ entry ∈ entries, entry ≤ maxLiteral := by
      intro value member
      obtain ⟨entry, present, rfl⟩ := List.mem_map.mp member
      obtain ⟨number, rfl, bound⟩ := stack entry present
      exact bound
    have writable : Writable snapshot pc entries :=
      ⟨counter, by simp only [maxCounter]; omega, written, fun entry member =>
        Nat.lt_of_le_of_lt (literals entry member) (by decide)⟩
    exact decode_encode writable registers literals
  · rw [exists_decode_iff, find?_fields_eq_none_iff, header]
  · intro snapshot decoded
    have long := ((exists_decode_iff bytes).mp ⟨snapshot, decoded⟩).1
    have cut : headerSize + (bytes.length - headerSize) / 4 * 4 =
        bytes.length - (bytes.length - 131112) % 4 := by omega
    rw [encode_of_accepted long decoded, cut]
  · intro long error failed
    cases found : (fields bytes.length).find? (Field.offends bytes) with
    | none =>
      rw [decode_of_inoffensive long found] at failed
      cases failed
    | some field =>
      obtain ⟨other, rejected, kind, context⟩ := decode_of_offending long found
      rw [rejected] at failed
      cases failed
      exact ⟨field, rfl, kind, context⟩

/-- A snapshot without memory, with a single register and two stack entries. -/
def Snapshot.sparse : Snapshot where
  memory := #[]
  registers := #[32767]
  stack := [.ofNat 0, .ofNat 32767]
  pc := 0xffffffff

theorem Snapshot.decode_exact_sparse :
    decode (encode sparse) = .ok
      { memory := resized 32768 #[]
        registers := resized 8 #[32767]
        stack := [.ofNat 0, .ofNat 32767]
        pc := 0xffffffff } ∧
    131112 ≤ (encode sparse).length ∧ (encode sparse).wordAt 131104 8 ≤ 0xffffffff := by
  have registers : ∀ value ∈ sparse.registers, value.toNat ≤ 32767 := by
    intro value member
    obtain rfl : value = 32767 := by simpa [sparse] using member
    decide
  have stack : ∀ entry ∈ sparse.stack, entry.UpTo 32767 := by
    intro entry member
    rcases List.mem_cons.mp member with same | later
    · exact ⟨0, same, by decide⟩
    · exact ⟨32767, List.mem_singleton.mp later, by decide⟩
  have decoded := Snapshot.decode_exact.1 sparse (by decide) registers stack
  obtain ⟨long, _, _, counter, _⟩ := (Snapshot.decode_exact.2 (encode sparse)).1.mp ⟨_, decoded⟩
  exact ⟨decoded, long, counter⟩

end AdventureMachine
