import AdventureMachine.Image
import AdventureMachine.Proofs.SnapshotFormat

/-! The format of program images. Reading undoes writing for every sequence of words that memory has
room for, and writing undoes reading up to a trailing odd byte. A machine starts with the words of
its image in front of zeros, so the image can be read off its memory. -/
namespace AdventureMachine

theorem toList_ofFn_getD {size : Nat} {words : List UInt16} (fits : words.length ≤ size) :
    (Vector.ofFn fun index : Fin size => words.toArray.getD index 0).toList =
      words ++ List.replicate (size - words.length) 0 := by
  apply List.ext_getElem
  · simp [fits]
  · intro index inside _
    rw [List.getElem_append]
    split
    · rename_i held
      simp [held]
    · rename_i beyond
      simp [Nat.not_lt.mp beyond]

/-- Memory that was loaded holds the words in order and zeros behind them. -/
theorem Memory.toList_ofWords {words : List UInt16} (fits : words.length ≤ memorySize) :
    (ofWords words.toArray).cells.toList =
      words ++ List.replicate (memorySize - words.length) 0 := toList_ofFn_getD fits

namespace Image

theorem encode_eq (words : List UInt16) :
    encode words = (words.map UInt16.toNat).flatMap (Bytes.ofNat wordSize) := by
  rw [encode, List.flatMap_map]

theorem length_encode (words : List UInt16) : (encode words).length = words.length * wordSize := by
  rw [encode_eq, Bytes.length_flatMap_ofNat, List.length_map]

theorem length_encode_le_iff {words : List UInt16} :
    (encode words).length ≤ maxBytes ↔ words.length ≤ memorySize := by
  rw [length_encode]
  exact Nat.mul_le_mul_right_iff (by decide)

/-- An image that fits is read back word by word. -/
theorem decode_encode {words : List UInt16} (fits : (encode words).length ≤ maxBytes) :
    decode (encode words) = .ok words := by
  have small : ∀ value ∈ words.map UInt16.toNat, value < Bytes.capacity wordSize := by
    intro value member
    obtain ⟨word, _, rfl⟩ := List.mem_map.mp member
    exact word.toNat_lt
  rw [decode, if_neg (Nat.not_lt.mpr fits), encode_eq,
    Bytes.words_flatMap_ofNat (by decide) _ small, List.map_map]
  congr 1
  exact (List.map_congr_left fun word _ => UInt16.ofNat_toNat).trans (List.map_id' words)

/-- An image that is accepted holds the words it was made from, and memory has room for them. -/
theorem decode_encode_ok {words found : List UInt16} (accepted : decode (encode words) = .ok found) :
    found = words ∧ words.length ≤ memorySize := by
  have fits : (encode words).length ≤ maxBytes := by
    rw [decode] at accepted
    split at accepted
    · cases accepted
    · exact Nat.le_of_not_lt ‹_›
  rw [decode_encode fits] at accepted
  exact ⟨(Except.ok.inj accepted).symm, length_encode_le_iff.mp fits⟩

/-- Two bytes hold what a word keeps of a number. -/
theorem ofNat_toNat_ofNat (value : Nat) :
    Bytes.ofNat wordSize (UInt16.ofNat value).toNat = Bytes.ofNat wordSize value := by
  have low : UInt8.ofNat (value % 65536) = .ofNat value := by
    apply UInt8.toNat_inj.mp
    simp only [UInt8.toNat_ofNat']
    omega
  have high : UInt8.ofNat (value % 65536 / 256) = .ofNat (value / 256) := by
    apply UInt8.toNat_inj.mp
    simp only [UInt8.toNat_ofNat']
    omega
  simp only [Bytes.ofNat, UInt16.toNat_ofNat', low, high]

/-- An image that fits is read, and writing its words gives it back without a trailing odd byte. -/
theorem exists_decode {image : Bytes} (fits : image.length ≤ maxBytes) :
    ∃ words, decode image = .ok words ∧ words.length ≤ memorySize ∧
      encode words = image.take (image.length - image.length % wordSize) := by
  have whole : image.length / wordSize * wordSize = image.length - image.length % wordSize :=
    Nat.eq_sub_of_add_eq (Nat.div_add_mod' _ _)
  refine ⟨_, by rw [decode, if_neg (Nat.not_lt.mpr fits)], ?_, ?_⟩
  · rw [List.length_map, Bytes.words, List.length_map, List.length_range]
    exact Nat.div_le_of_le_mul (by rwa [Nat.mul_comm])
  · rw [encode, List.flatMap_map, ← whole, ← Bytes.flatMap_ofNat_words (by decide), List.flatMap_def,
      List.flatMap_def]
    exact congrArg List.flatten (List.map_congr_left fun value _ => ofNat_toNat_ofNat value)

theorem decode_oversized {image : Bytes} (beyond : maxBytes < image.length) :
    decode image = .error (.oversizedImage image.length) := by
  rw [decode, if_pos beyond]

/-- Words that memory has room for are read back as they were written. An image of at most 65536
bytes holds words that give it back without a trailing odd byte; a machine that is made from it
starts at zero, with an empty stack, zero registers, and memory that holds these words with zeros
behind them. A longer image is rejected. -/
theorem codec_exact {σ τ : Type} (source : σ) (sink : τ) (tracing : Bool) :
    (∀ words : List UInt16, words.length ≤ 32768 → decode (encode words) = .ok words) ∧
      (∀ image : Bytes, image.length ≤ 65536 → ∃ words memory,
        decode image = .ok words ∧
        encode words = image.take (image.length - image.length % 2) ∧
        Machine.ofImage image source sink tracing =
          .ok (.ofState ⟨memory, .zero, [], 0⟩ source sink tracing) ∧
        memory.cells.toList = words ++ List.replicate (32768 - words.length) 0 ∧
        encode (memory.cells.toList.take words.length) =
          image.take (image.length - image.length % 2)) ∧
      ∀ image : Bytes, 65536 < image.length →
        decode image = .error (.oversizedImage image.length) ∧
        Machine.ofImage image source sink tracing = .error (.oversizedImage image.length) := by
  refine ⟨?_, ?_, ?_⟩
  · intro words fits
    exact decode_encode (length_encode_le_iff.mpr fits)
  · intro image fits
    obtain ⟨words, read, room, written⟩ := exists_decode fits
    have loaded := Memory.toList_ofWords room
    refine ⟨words, .ofWords words.toArray, read, written, ?_, loaded, ?_⟩
    · rw [Machine.ofImage, read]
      rfl
    · rw [loaded, List.take_left, written]
  · intro image beyond
    have rejected := decode_oversized beyond
    exact ⟨rejected, by rw [Machine.ofImage, rejected]; rfl⟩

/-- A word that names a register, an image with an odd byte, and an image that is one byte too
long. -/
theorem codec_exact_edges :
    decode (encode [19, 0x8001]) = .ok [19, 0x8001] ∧
      (∃ words memory, decode [0x13, 0, 1] = .ok words ∧ encode words = [0x13, 0] ∧
        Machine.ofImage [0x13, 0, 1] () () false =
          .ok (.ofState ⟨memory, .zero, [], 0⟩ () () false) ∧
        encode (memory.cells.toList.take words.length) = [0x13, 0]) ∧
      decode (List.replicate 65537 0) = .error (.oversizedImage 65537) := by
  obtain ⟨words, images, oversized⟩ := codec_exact () () false
  obtain ⟨held, memory, read, written, started, _, again⟩ := images [0x13, 0, 1] (by decide)
  have long : (List.replicate 65537 (0 : UInt8)).length = 65537 := List.length_replicate
  have rejected := (oversized (List.replicate 65537 0) (by rw [long]; decide)).1
  rw [long] at rejected
  exact ⟨words [19, 0x8001] (by decide), ⟨held, memory, read, written, started, again⟩, rejected⟩

end Image

end AdventureMachine
