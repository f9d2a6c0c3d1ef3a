import AdventureMachine.Machine

/-! Operands read as exact integers: which words denote a value, which name a register, and why
everything that is computed from literals is a literal again. -/
namespace AdventureMachine

/-- The operand that names the last register; every word above it is invalid. -/
abbrev lastOperand : Nat := 32775

/-- The limits of the machine in decimal, for linear arithmetic. -/
theorem word_limits : maxLiteral = 32767 ∧ firstRegister = 32768 ∧ registerCount = 8 ∧
    lastOperand = 32775 ∧ memorySize = 32768 ∧ UInt16.size = 65536 := by
  decide

/-- A computation that answers with something good or fails in a permitted way. -/
def Meets {α : Type} (good : α → Prop) (permitted : Error → Prop) : Except Error α → Prop
  | .ok value => good value
  | .error error => permitted error

theorem Meets.bind {α β : Type} {good : β → Prop} {middle : α → Prop} {permitted : Error → Prop}
    {first : Except Error α} {next : α → Except Error β} (meets : Meets middle permitted first)
    (rest : ∀ value, middle value → Meets good permitted (next value)) :
    Meets good permitted (first >>= next) := by
  cases first with
  | error error => exact meets
  | ok value => exact rest value meets

/-- A check that is passed hands its value on. -/
theorem bind_ok {α β : Type} {first : Except Error α} {next : α → Except Error β} {result : β}
    (passed : first >>= next = .ok result) :
    ∃ value, first = .ok value ∧ next value = .ok result := by
  cases first with
  | error error => cases passed
  | ok value => exact ⟨value, rfl, passed⟩

/-- Failures that the checks of a fetched instruction report. -/
def Error.OfCheck : Error → Prop
  | .invalidLoad _ | .invalidStore _ | .emptyStack | .divisionByZero _ => True
  | _ => False

/-- A whole number from zero to `limit`. -/
def Number.UpTo (limit : Nat) (number : Number) : Prop :=
  ∃ value : Nat, number = .ofNat value ∧ value ≤ limit

theorem Number.UpTo.mono {number : Number} {limit wider : Nat} (upTo : number.UpTo limit)
    (le : limit ≤ wider) : number.UpTo wider := by
  obtain ⟨value, same, bound⟩ := upTo
  exact ⟨value, same, Nat.le_trans bound le⟩

theorem Number.upTo_ofWord {word : UInt16} {limit : Nat} (bound : word.toNat ≤ limit) :
    (Number.ofWord word).UpTo limit := ⟨word.toNat, rfl, bound⟩

/-- A number that fits a word keeps its value in it. -/
theorem Number.toNat_toWord {value : Nat} (fits : value < UInt16.size) :
    (Number.ofNat value).toWord.toNat = value := by
  have limits := word_limits
  have kept : ((value : Int) % 2 ^ 16).toNat = value := by omega
  simp only [toWord, truncate, UInt16.ofInt, Int.ofNat_eq_natCast, kept]
  exact UInt16.toNat_ofNat_of_lt' fits

/-- The register that a register operand names. -/
def Operand.registerAt (operand : Nat) : Fin registerCount :=
  ⟨(operand - firstRegister) % registerCount, Nat.mod_lt _ (by decide)⟩

namespace Registers

/-- Every register holds a literal. -/
def Literal (registers : Registers) : Prop :=
  ∀ index, (registers.get index).toNat ≤ maxLiteral

/-- The integer that a valid operand denotes: a literal itself, or the content of the register it
names. -/
def denoted (registers : Registers) (word : Nat) : Nat :=
  if word ≤ maxLiteral then word
  else (registers.get (Operand.registerAt word)).toNat

theorem literal_zero : zero.Literal := by
  intro index
  simp [zero, get]

theorem Literal.put {registers : Registers} {value : UInt16} (literal : registers.Literal)
    (bound : value.toNat ≤ maxLiteral) (index : Fin registerCount) :
    (registers.put index value).Literal := by
  intro other
  rw [get_put]
  split
  · exact bound
  · exact literal other

theorem denoted_le {registers : Registers} (literal : registers.Literal) (word : Nat) :
    registers.denoted word ≤ maxLiteral := by
  unfold denoted
  split
  · assumption
  · exact literal _

end Registers

namespace Operand

theorem wordRegister?_of_le {word : UInt16} (low : firstRegister ≤ word.toNat)
    (high : word.toNat ≤ lastOperand) :
    wordRegister? word = some (registerAt word.toNat) := by
  have limits := word_limits
  have bound : word.toNat - firstRegister < registerCount := by omega
  simp only [wordRegister?, low, bound, and_self, ↓reduceDIte, Option.some.injEq]
  exact Fin.ext (Nat.mod_eq_of_lt bound).symm

theorem wordRegister?_eq_none {word : UInt16}
    (outside : ¬ (firstRegister ≤ word.toNat ∧ word.toNat ≤ lastOperand)) :
    wordRegister? word = none := by
  have limits := word_limits
  have apart : ¬ (firstRegister ≤ word.toNat ∧ word.toNat - firstRegister < registerCount) := by
    omega
  simp only [wordRegister?, apart, ↓reduceDIte]

theorem wordDestination_of_le {word : UInt16} (low : firstRegister ≤ word.toNat)
    (high : word.toNat ≤ lastOperand) :
    wordDestination word = .ok (registerAt word.toNat) := by
  simp only [wordDestination, wordRegister?_of_le low high]

theorem wordDestination_eq_error {word : UInt16}
    (outside : ¬ (firstRegister ≤ word.toNat ∧ word.toNat ≤ lastOperand)) :
    wordDestination word = .error (.invalidStore (.ofWord word)) := by
  simp only [wordDestination, wordRegister?_eq_none outside]

theorem wordDestination_ok {word : UInt16} {register : Fin registerCount}
    (named : wordDestination word = .ok register) :
    (firstRegister ≤ word.toNat ∧ word.toNat ≤ lastOperand) ∧
      register = registerAt word.toNat := by
  by_cases valid : firstRegister ≤ word.toNat ∧ word.toNat ≤ lastOperand
  · rw [wordDestination_of_le valid.1 valid.2] at named
    exact ⟨valid, (Except.ok.inj named).symm⟩
  · rw [wordDestination_eq_error valid] at named
    cases named

theorem wordDestination_meets (word : UInt16) :
    Meets (fun register => wordDestination word = .ok register) Error.OfCheck
      (wordDestination word) := by
  cases named : wordDestination word with
  | ok register => exact rfl
  | error error =>
    unfold wordDestination at named
    split at named <;> cases named
    trivial

end Operand

namespace Registers

theorem resolve_of_le (registers : Registers) {word : UInt16} (valid : word.toNat ≤ lastOperand) :
    ∃ value, registers.resolve word = .ok value ∧
      value.toNat = registers.denoted word.toNat := by
  by_cases literal : word.toNat ≤ maxLiteral
  · refine ⟨word, ?_, ?_⟩
    · simp only [resolve, literal, ↓reduceIte]
    · simp only [denoted, literal, ↓reduceIte]
  · have found := Operand.wordRegister?_of_le (Nat.lt_of_not_le literal) valid
    refine ⟨registers.get (Operand.registerAt word.toNat), ?_, ?_⟩
    · simp only [resolve, literal, ↓reduceIte, found]
    · simp only [denoted, literal, ↓reduceIte]

theorem resolve_eq_error (registers : Registers) {word : UInt16}
    (invalid : lastOperand < word.toNat) :
    registers.resolve word = .error (.invalidLoad (.ofWord word)) := by
  have limits := word_limits
  have above : ¬ word.toNat ≤ maxLiteral := by omega
  have unnamed : Operand.wordRegister? word = none := Operand.wordRegister?_eq_none (by omega)
  simp only [resolve, above, ↓reduceIte, unnamed]

theorem resolve_ok {registers : Registers} {word value : UInt16}
    (resolved : registers.resolve word = .ok value) :
    word.toNat ≤ lastOperand ∧ value.toNat = registers.denoted word.toNat := by
  by_cases valid : word.toNat ≤ lastOperand
  · obtain ⟨other, found, same⟩ := registers.resolve_of_le valid
    rw [found] at resolved
    cases resolved
    exact ⟨valid, same⟩
  · rw [registers.resolve_eq_error (by omega)] at resolved
    cases resolved

/-- A computation that goes on behind an operand had a valid one. -/
theorem resolve_bind_ok {registers : Registers} {word : UInt16} {α : Type} {result : α}
    {next : UInt16 → Except Error α} (passed : registers.resolve word >>= next = .ok result) :
    word.toNat ≤ lastOperand := by
  obtain ⟨value, resolved, _⟩ := bind_ok passed
  exact (resolve_ok resolved).1

theorem resolve_literal (registers : Registers) {word : UInt16}
    (literal : word.toNat ≤ maxLiteral) : registers.resolve word = .ok word := by
  simp only [resolve, literal, ↓reduceIte]

theorem load_literal (registers : Registers) {value : Nat} (literal : value ≤ maxLiteral) :
    registers.load (.ofNat value) = .ok (.ofNat value) := by
  have inside : (Number.ofNat value).within 0 maxLiteral = true := by
    simp only [Number.within, Int.ofNat_eq_natCast, Bool.and_eq_true, decide_eq_true_eq]
    omega
  rw [load, if_pos inside]

/-- An entry of the stack is a literal, or the address behind memory, which reads as the first
register. Either way it denotes a literal. -/
theorem Literal.load_entry {registers : Registers} {entry : Number} (literal : registers.Literal)
    (upTo : entry.UpTo memorySize) :
    ∃ value, registers.load entry = .ok value ∧ value.UpTo maxLiteral := by
  obtain ⟨value, rfl, bound⟩ := upTo
  have limits := word_limits
  by_cases small : value ≤ maxLiteral
  · exact ⟨.ofNat value, registers.load_literal small, value, rfl, small⟩
  · obtain rfl : value = memorySize := by omega
    exact ⟨.ofWord (registers.get 0), rfl, Number.upTo_ofWord (literal 0)⟩

/-- Whatever an operand denotes is a literal, as long as the registers hold literals. -/
theorem Literal.resolve_meets {registers : Registers} (literal : registers.Literal)
    (word : UInt16) :
    Meets (fun value => value.toNat ≤ maxLiteral) Error.OfCheck (registers.resolve word) := by
  by_cases valid : word.toNat ≤ lastOperand
  · obtain ⟨value, resolved, same⟩ := registers.resolve_of_le valid
    rw [resolved, Meets, same]
    exact denoted_le literal _
  · rw [registers.resolve_eq_error (by omega)]
    trivial

end Registers

namespace Binary

/-- The integer that an operation computes. -/
def result (operation : Binary) (b c : Nat) : Nat :=
  match operation with
  | eq => if b = c then 1 else 0
  | gt => if b > c then 1 else 0
  | add => (b + c) % 32768
  | mult => b * c % 32768
  | mod => b % c
  | and => b &&& c
  | or => b ||| c

theorem result_le (operation : Binary) {b c : Nat} (left : b ≤ maxLiteral)
    (right : c ≤ maxLiteral) : operation.result b c ≤ maxLiteral := by
  have limits := word_limits
  cases operation with
  | eq => simp only [result]; split <;> omega
  | gt => simp only [result]; split <;> omega
  | add => simp only [result]; omega
  | mult => simp only [result]; omega
  | mod => exact Nat.le_trans (Nat.mod_le b c) left
  | and => exact Nat.le_trans Nat.and_le_left left
  | or =>
    have below := Nat.or_lt_two_pow (x := b) (y := c) (n := 15) (by omega) (by omega)
    simp only [result]
    omega

/-- An operation answers with its result on integers, except a remainder by zero. -/
theorem apply_of_ne_zero (operation : Binary) (b c : UInt16)
    (divisible : operation = mod → c.toNat ≠ 0) :
    ∃ value, operation.apply b c = .ok value ∧ value.toNat = operation.result b.toNat c.toNat := by
  cases operation with
  | eq =>
    refine ⟨_, rfl, ?_⟩
    by_cases same : b = c
    · simp [result, same]
    · simp [result, same, UInt16.toNat_inj]
  | gt =>
    refine ⟨_, rfl, ?_⟩
    by_cases less : c < b
    · simp [result, less, UInt16.lt_iff_toNat_lt.mp less]
    · simp [result, less, mt UInt16.lt_iff_toNat_lt.mpr less]
  | add =>
    refine ⟨_, rfl, ?_⟩
    rw [UInt16.toNat_ofNat_of_lt' (Nat.lt_trans (Nat.mod_lt _ (by decide)) (by decide))]
    rfl
  | mult =>
    refine ⟨_, rfl, ?_⟩
    rw [UInt16.toNat_ofNat_of_lt' (Nat.lt_trans (Nat.mod_lt _ (by decide)) (by decide))]
    rfl
  | mod =>
    have nonzero : c ≠ 0 := by
      intro zero
      exact divisible rfl (by simp [zero])
    exact ⟨b % c, by simp only [apply, nonzero, ↓reduceIte], UInt16.toNat_mod b c⟩
  | and => exact ⟨_, rfl, UInt16.toNat_and b c⟩
  | or => exact ⟨_, rfl, UInt16.toNat_or b c⟩

theorem apply_mod_zero (b c : UInt16) (zero : c.toNat = 0) :
    mod.apply b c = .error (.divisionByZero b) := by
  have same : c = 0 := UInt16.toNat_inj.mp zero
  simp only [apply, same, ↓reduceIte]

/-- Operations on literals give literals. -/
theorem apply_meets (operation : Binary) {b c : UInt16} (left : b.toNat ≤ maxLiteral)
    (right : c.toNat ≤ maxLiteral) :
    Meets (fun value => value.toNat ≤ maxLiteral) Error.OfCheck (operation.apply b c) := by
  by_cases divisible : operation = mod → c.toNat ≠ 0
  · obtain ⟨value, computed, same⟩ := operation.apply_of_ne_zero b c divisible
    rw [computed, Meets, same]
    exact operation.result_le left right
  · obtain ⟨rfl, zero⟩ : operation = mod ∧ c.toNat = 0 := by simpa using divisible
    rw [apply_mod_zero b c zero]
    trivial

end Binary

/-- A literal is an address inside memory. -/
theorem Number.index?_ofWord {word : UInt16} (literal : word.toNat ≤ maxLiteral) :
    ∃ index : Fin memorySize, (Number.ofWord word).index? memorySize = some index ∧
      index.val = word.toNat := by
  have limits := word_limits
  exact ⟨⟨word.toNat, by omega⟩, Number.index?_ofNat (by omega), rfl⟩

theorem Memory.word_put (memory : Memory) (address : Fin memorySize) (word : UInt16) (other : Nat) :
    (memory.put address word).word other =
      if address.val = other then word else memory.word other := by
  by_cases bound : other < memorySize
  · have after := (memory.put address word).word_eq_get ⟨other, bound⟩
    have before := memory.word_eq_get ⟨other, bound⟩
    simp only [get_put, Fin.ext_iff, ← before] at after
    exact after
  · have apart : address.val ≠ other := fun same => bound (same ▸ address.isLt)
    have absent (cells : Memory) : cells.word other = 0 := by
      simp only [Memory.word, Array.getD, Vector.size_toArray, bound, ↓reduceDIte]
    rw [if_neg apart, absent, absent]

theorem Memory.read_ok {memory : Memory} {address word : UInt16}
    (found : memory.read (.ofWord address) = .ok word) : word = memory.word address.toNat := by
  unfold read at found
  split at found
  · rename_i index named
    cases found
    have same : address.toNat = index.val :=
      Int.ofNat.inj (Number.whole.inj (Number.eq_ofNat_of_index? named))
    rw [same, word_eq_get]
  · cases found

theorem Memory.read_meets (memory : Memory) {address : UInt16}
    (literal : address.toNat ≤ maxLiteral) :
    Meets (fun _ => True) Error.OfCheck (memory.read (.ofWord address)) := by
  obtain ⟨index, found, _⟩ := Number.index?_ofWord literal
  rw [read, found]
  trivial

/-- The inverse of a literal is its distance from the largest one. -/
theorem toNat_inverse {word : UInt16} (literal : word.toNat ≤ maxLiteral) :
    (~~~word &&& 0x7fff).toNat = maxLiteral - word.toNat := by
  have mask : (0x7fff : UInt16).toNat = 2 ^ 15 - 1 := rfl
  rw [UInt16.toNat_and, UInt16.toNat_not, mask, Nat.and_two_pow_sub_one_eq_mod]
  have limits := word_limits
  omega

/-- Registers hold literals, and stack entries are at most the address behind memory. -/
structure State.Bounded (state : State) : Prop where
  registers : state.registers.Literal
  stack : ∀ entry ∈ state.stack, entry.UpTo memorySize

end AdventureMachine
