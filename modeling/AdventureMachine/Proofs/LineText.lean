import AdventureMachine.Listing
import AdventureMachine.Proofs.Operand
import AdventureMachine.Proofs.Text

/-! The texts of listed lines. Cut at its blanks, a text starts with a mnemonic and with each operand
as it is written, or with the mark of a data word. Different operands are written differently, so a
text tells which operation or which word it shows. -/
namespace AdventureMachine

namespace Number

theorem digitChar_injective {digit other : Nat} (small : digit < 16) (bound : other < 16)
    (same : digit.digitChar = other.digitChar) : digit = other := by
  have all : ∀ first second : Fin 16, first.val.digitChar = second.val.digitChar →
      first = second := by
    decide
  exact congrArg Fin.val (all ⟨digit, small⟩ ⟨other, bound⟩ same)

/-- Numbers that are kept exactly are written with all their digits. -/
theorem decimal_ofNat {value : Nat} (small : value < Precision.exactBelow) :
    (Number.ofNat value).decimal = AdventureMachine.decimal value := by
  have kept : Precision.shortestNat value = value := if_pos small
  have few : (Number.digits 10 value).length ≤ Number.longest :=
    (Nat.length_toDigits_le_iff (by decide) (by decide)).mpr (Nat.lt_trans small (by decide))
  have written : Number.decimalDigits value = Number.digits 10 value := by
    simp only [Number.decimalDigits, kept, if_pos few]
  exact congrArg String.ofList written

/-- Different numbers have different digits. -/
theorem digits_injective {base : Nat} (binary : 1 < base) (known : base ≤ 16) {value other : Nat}
    (same : digits base value = digits base other) : value = other := by
  unfold digits at same
  induction value using Nat.strongRecOn generalizing other with
  | ind value ih =>
    have last : ∀ number, number % base < 16 := fun number =>
      Nat.lt_of_lt_of_le (Nat.mod_lt number (by omega)) known
    by_cases short : value < base <;> by_cases brief : other < base
    · rw [Nat.toDigits_of_lt_base short, Nat.toDigits_of_lt_base brief] at same
      exact digitChar_injective (by omega) (by omega) (List.cons.inj same).1
    · rw [Nat.toDigits_of_lt_base short,
        Nat.toDigits_of_base_le binary (Nat.le_of_not_lt brief)] at same
      exact absurd (List.append_eq_singleton_iff.mp same.symm) (by simp)
    · rw [Nat.toDigits_of_lt_base brief,
        Nat.toDigits_of_base_le binary (Nat.le_of_not_lt short)] at same
      exact absurd (List.append_eq_singleton_iff.mp same) (by simp)
    · rw [Nat.toDigits_of_base_le binary (Nat.le_of_not_lt short),
        Nat.toDigits_of_base_le binary (Nat.le_of_not_lt brief)] at same
      obtain ⟨front, back⟩ := List.append_inj' same rfl
      have rest := ih _ (Nat.div_lt_self (by omega) binary) front
      have digit := digitChar_injective (last _) (last _) (List.cons.inj back).1
      rw [← Nat.div_add_mod value base, ← Nat.div_add_mod other base, rest, digit]

/-- Digits are written with decimal digits and letters. -/
theorem isAlphanum_of_mem_digits {base : Nat} (binary : 1 < base) (known : base ≤ 16) {value : Nat}
    {c : Char} (member : c ∈ digits base value) : c.isAlphanum = true := by
  have all : ∀ digit : Fin 16, digit.val.digitChar.isAlphanum = true := by decide
  unfold digits at member
  induction value using Nat.strongRecOn with
  | ind value ih =>
    by_cases short : value < base
    · rw [Nat.toDigits_of_lt_base short, List.mem_singleton] at member
      exact member ▸ all ⟨value, by omega⟩
    · rw [Nat.toDigits_of_base_le binary (Nat.le_of_not_lt short), List.mem_append,
        List.mem_singleton] at member
      rcases member with front | rfl
      · exact ih _ (Nat.div_lt_self (by omega) binary) front
      · exact all ⟨value % base, Nat.lt_of_lt_of_le (Nat.mod_lt value (by omega)) known⟩

/-- What a whole number is written with, however large it is. -/
def Plain (c : Char) : Prop := c.isAlphanum = true ∨ c = '+' ∨ c = '.'

theorem Plain.ne {c : Char} (plain : Plain c) : c ≠ ':' ∧ c ≠ '\n' := by
  constructor
  · rintro rfl
    exact absurd plain (by unfold Plain; decide)
  · rintro rfl
    exact absurd plain (by unfold Plain; decide)

theorem plain_of_mem_decimalDigits {size : Nat} {c : Char} (member : c ∈ decimalDigits size) :
    Plain c := by
  have digit {number : Nat} : ∀ c ∈ digits 10 number, Plain c := fun c inside =>
    .inl (isAlphanum_of_mem_digits (by decide) (by decide) inside)
  have power {number : Nat} : ∀ c ∈ ['e', '+'] ++ digits 10 number, Plain c := by
    intro c inside
    simp only [List.cons_append, List.nil_append, List.mem_cons] at inside
    rcases inside with rfl | rfl | behind
    · exact .inl rfl
    · exact .inr (.inl rfl)
    · exact digit c behind
  have front {number : Nat} :
      ∀ c ∈ ((digits 10 number).reverse.dropWhile (· == '0')).reverse, Plain c := by
    intro c inside
    exact digit c (List.mem_reverse.mp
      ((List.dropWhile_sublist _).subset (List.mem_reverse.mp inside)))
  unfold decimalDigits at member
  simp only at member
  split at member
  · exact digit c member
  · have written := @front (Precision.shortestNat size)
    split at member
    · exact power c member
    · rename_i first shape
      rw [shape] at written
      rcases List.mem_cons.mp member with rfl | behind
      · exact written c (by simp)
      · exact power c behind
    · rename_i first rest _ shape
      rw [shape] at written
      rcases List.mem_cons.mp member with rfl | behind
      · exact written c (by simp)
      · rcases List.mem_cons.mp behind with rfl | more
        · exact .inr (.inr rfl)
        · rcases List.mem_append.mp more with inside | behind
          · exact written c (List.mem_cons_of_mem _ inside)
          · exact power c behind

end Number

theorem decimal_injective {value other : Nat} (same : decimal value = decimal other) :
    value = other :=
  Number.digits_injective (by decide) (by decide) (String.ofList_injective same)

namespace Operand

/-- How an operand word is written: a literal in decimal, a register by its name, any other word in
hexadecimal. -/
def shown (value : Nat) : String :=
  if value ≤ maxLiteral then decimal value
  else if value ≤ lastOperand then "r" ++ decimal (value - firstRegister)
  else "0x" ++ .ofList (Number.digits 16 value)

theorem register?_literal {value : Nat} (literal : value ≤ maxLiteral) :
    register? (.ofNat value) = none := by
  have limits := word_limits
  obtain ⟨less, negative⟩ : ∃ less : Nat, Int.ofNat value + -firstRegister = .negSucc less :=
    ⟨maxLiteral - value, by simp only [Int.ofNat_eq_natCast]; omega⟩
  simp only [register?, Number.shift, negative, Number.index?]

theorem register?_above {value : Nat} (above : maxLiteral < value) :
    register? (.ofNat value) = (Number.ofNat (value - firstRegister)).index? registerCount := by
  have limits := word_limits
  have behind : Int.ofNat value + -firstRegister = Int.ofNat (value - firstRegister) := by
    simp only [Int.ofNat_eq_natCast]
    omega
  simp only [register?, Number.shift, behind]

theorem text_ofNat {value : Nat} (word : value < UInt16.size) :
    text (.ofNat value) = shown value := by
  have limits := word_limits
  have above : (Number.ofNat value).ceiling > maxLiteral ↔ maxLiteral < value := Int.ofNat_lt
  unfold text shown
  by_cases literal : value ≤ maxLiteral
  · simp only [register?_literal literal]
    rw [if_neg (by rw [above]; omega), if_pos literal,
      Number.decimal_ofNat (Nat.lt_trans word (by decide))]
  · rw [register?_above (Nat.lt_of_not_le literal), if_neg literal]
    by_cases register : value ≤ lastOperand
    · rw [Number.index?_ofNat (by omega), if_pos register]
    · rw [Number.index?_ofNat_of_le (by omega), if_neg register]
      simp only
      rw [if_pos (by rw [above]; omega)]
      rfl

theorem text_ofWord (word : UInt16) : text (.ofWord word) = shown word.toNat :=
  text_ofNat word.toNat_lt

theorem shown_literal {value : Nat} (literal : value ≤ maxLiteral) : shown value = decimal value :=
  if_pos literal

theorem toList_shown_register {value : Nat} (above : maxLiteral < value)
    (register : value ≤ lastOperand) :
    (shown value).toList = 'r' :: (decimal (value - firstRegister)).toList := by
  rw [shown, if_neg (Nat.not_le_of_lt above), if_pos register]
  simp

theorem toList_shown_invalid {value : Nat} (above : lastOperand < value) :
    (shown value).toList = '0' :: 'x' :: Number.digits 16 value := by
  have limits := word_limits
  rw [shown, if_neg (by omega), if_neg (Nat.not_le_of_lt above)]
  simp

/-- Only a literal is written with nothing but decimal digits. -/
theorem literal_of_isDigit {value : Nat}
    (plain : ∀ c ∈ (shown value).toList, c.isDigit = true) : value ≤ maxLiteral := by
  apply Nat.le_of_not_lt
  intro above
  by_cases register : value ≤ lastOperand
  · rw [toList_shown_register above register] at plain
    exact absurd (plain 'r' (by simp)) (by decide)
  · rw [toList_shown_invalid (Nat.lt_of_not_le register)] at plain
    exact absurd (plain 'x' (by simp)) (by decide)

/-- Different words are written differently. -/
theorem shown_injective {value other : Nat} (same : shown value = shown other) : value = other := by
  have limits := word_limits
  by_cases literal : value ≤ maxLiteral
  · have plain : other ≤ maxLiteral := literal_of_isDigit fun c member =>
      Text.isDigit_of_mem_decimal (shown_literal literal ▸ same ▸ member)
    rw [shown_literal literal, shown_literal plain] at same
    exact decimal_injective same
  · have above : maxLiteral < other := by
      apply Nat.lt_of_not_le
      intro plain
      exact literal (literal_of_isDigit fun c member =>
        Text.isDigit_of_mem_decimal (shown_literal plain ▸ same ▸ member))
    have written := congrArg String.toList same
    by_cases register : value ≤ lastOperand <;> by_cases named : other ≤ lastOperand
    · rw [toList_shown_register (Nat.lt_of_not_le literal) register,
        toList_shown_register above named] at written
      have index := decimal_injective (String.toList_inj.mp (List.cons.inj written).2)
      omega
    · rw [toList_shown_register (Nat.lt_of_not_le literal) register,
        toList_shown_invalid (Nat.lt_of_not_le named)] at written
      exact absurd (List.cons.inj written).1 (by decide)
    · rw [toList_shown_invalid (Nat.lt_of_not_le register),
        toList_shown_register above named] at written
      exact absurd (List.cons.inj written).1 (by decide)
    · rw [toList_shown_invalid (Nat.lt_of_not_le register),
        toList_shown_invalid (Nat.lt_of_not_le named)] at written
      exact Number.digits_injective (by decide) (by decide)
        (List.cons.inj (List.cons.inj written).2).2

theorem isAlphanum_of_mem_shown {value : Nat} {c : Char} (member : c ∈ (shown value).toList) :
    c.isAlphanum = true := by
  have digit {number : Nat} (inside : c ∈ (decimal number).toList) : c.isAlphanum = true := by
    rw [decimal, String.toList_ofList] at inside
    exact Number.isAlphanum_of_mem_digits (by decide) (by decide) inside
  by_cases literal : value ≤ maxLiteral
  · rw [shown_literal literal] at member
    exact digit member
  · by_cases register : value ≤ lastOperand
    · rw [toList_shown_register (Nat.lt_of_not_le literal) register] at member
      rcases List.mem_cons.mp member with rfl | index
      · rfl
      · exact digit index
    · rw [toList_shown_invalid (Nat.lt_of_not_le register), List.mem_cons, List.mem_cons] at member
      rcases member with rfl | rfl | inside
      · rfl
      · rfl
      · exact Number.isAlphanum_of_mem_digits (by decide) (by decide) inside

end Operand

namespace Opcode

theorem isAlphanum_of_mem_mnemonic (opcode : Opcode) :
    ∀ c ∈ opcode.mnemonic.toList, c.isAlphanum = true := by
  apply List.all_eq_true.mp
  cases opcode <;> rfl

theorem ofMnemonic?_mnemonic (opcode : Opcode) : ofMnemonic? opcode.mnemonic = some opcode := by
  cases opcode <;> decide

theorem mnemonic_injective {opcode other : Opcode} (same : opcode.mnemonic = other.mnemonic) :
    opcode = other := by
  have found := opcode.ofMnemonic?_mnemonic
  rw [same, other.ofMnemonic?_mnemonic] at found
  exact (Option.some.inj found).symm

/-- The remark behind an operation: the printable character that an `out` of a literal writes. -/
def remark (opcode : Opcode) (operands : List Nat) : String :=
  match opcode, operands with
  | .output, [value] =>
    if 0x20 ≤ value ∧ value ≤ 0x7e then " ; '" ++ String.singleton (Char.ofNat value) ++ "'" else ""
  | _, _ => ""

/-- How an operation and its raw operands are listed. -/
def listed (opcode : Opcode) (operands : List Nat) : String :=
  " ".intercalate (opcode.mnemonic :: operands.map Operand.shown) ++ opcode.remark operands

theorem remark_of_ne {opcode : Opcode} (silent : opcode ≠ .output) (operands : List Nat) :
    opcode.remark operands = "" := by
  cases opcode <;> first | rfl | exact absurd rfl silent

/-- What stands behind the operands is another piece of its own. -/
theorem toList_remark (opcode : Opcode) (operands : List Nat) :
    opcode.remark operands = "" ∨ ∃ rest, (opcode.remark operands).toList = ' ' :: rest := by
  unfold remark
  split
  · rename_i value
    split
    · exact .inr ⟨[';', ' ', '\'', Char.ofNat value, '\''], by simp⟩
    · exact .inl rfl
  · exact .inl rfl

theorem newline_not_mem_remark (opcode : Opcode) (operands : List Nat) :
    '\n' ∉ (opcode.remark operands).toList := by
  unfold remark
  split
  · rename_i value
    split
    · rename_i printable
      have all : ∀ code : Fin 127, 32 ≤ code.val → '\n' ≠ Char.ofNat code.val := by decide
      simp [all ⟨value, by omega⟩ printable.1]
    · simp
  · simp

end Opcode

namespace Instruction

theorem words_eq (instruction : Instruction) :
    (instruction.operands.map fun word => Operand.text (.ofWord word)) =
      (instruction.operands.map UInt16.toNat).map Operand.shown := by
  rw [List.map_map]
  exact List.map_congr_left fun word _ => Operand.text_ofWord word

theorem eq_output_of_opcode {instruction : Instruction} (writes : instruction.opcode = .output) :
    ∃ a, instruction = .output a := by
  cases instruction with
  | output a => exact ⟨a, rfl⟩
  | binary operation a b c => cases operation <;> cases writes
  | branch wanted a b => cases wanted <;> cases writes
  | _ => cases writes

/-- An instruction is listed by its operation and its operands. -/
theorem text_eq (instruction : Instruction) :
    instruction.text = instruction.opcode.listed (instruction.operands.map UInt16.toNat) := by
  by_cases writes : instruction.opcode = .output
  · obtain ⟨a, rfl⟩ := eq_output_of_opcode writes
    have printable : ((0x20 ≤ a && a ≤ 0x7e) = true) ↔ (0x20 ≤ a.toNat ∧ a.toNat ≤ 0x7e) := by
      rw [Bool.and_eq_true, decide_eq_true_eq, decide_eq_true_eq, UInt16.le_iff_toNat_le,
        UInt16.le_iff_toNat_le]
      rfl
    unfold text Opcode.listed
    simp only [words_eq, printable]
    by_cases shown : 0x20 ≤ a.toNat ∧ a.toNat ≤ 0x7e
    · simp only [shown, opcode, operands, Opcode.remark, List.map_cons, List.map_nil, and_self,
        ↓reduceIte, String.append_assoc]
    · simp only [shown, opcode, operands, Opcode.remark, List.map_cons, List.map_nil, ↓reduceIte,
        String.append_empty]
  · rw [Opcode.listed, Opcode.remark_of_ne writes, String.append_empty, ← words_eq]
    unfold text
    split
    · exact absurd rfl writes
    · rfl

end Instruction

namespace Listing

/-- The pieces of a text between its blanks. -/
def pieces (text : String) : List (List Char) := text.toList.splitOn ' '

theorem blank_not_mem {text : List Char} (plain : ∀ c ∈ text, c.isAlphanum = true) : ' ' ∉ text :=
  fun member => absurd (plain ' ' member) (by decide)

/-- The pieces of a listed operation are its mnemonic, its operands, and those of the remark. -/
theorem pieces_listed (opcode : Opcode) (operands : List Nat) :
    ∃ rest, pieces (opcode.listed operands) =
      opcode.mnemonic.toList :: (operands.map fun value => (Operand.shown value).toList) ++ rest := by
  let words := opcode.mnemonic.toList :: operands.map fun value => (Operand.shown value).toList
  have written : (opcode.listed operands).toList =
      [' '].intercalate words ++ (opcode.remark operands).toList := by
    rw [Opcode.listed, String.toList_append, String.toList_intercalate, List.map_cons, List.map_map]
    rfl
  have clean : ∀ word ∈ words, ' ' ∉ word := by
    intro word member
    rcases List.mem_cons.mp member with rfl | inside
    · exact blank_not_mem opcode.isAlphanum_of_mem_mnemonic
    · obtain ⟨value, _, rfl⟩ := List.mem_map.mp inside
      exact blank_not_mem fun c => Operand.isAlphanum_of_mem_shown
  have cut : ([' '].intercalate words).splitOn ' ' = words :=
    List.splitOn_intercalate ' ' clean (List.cons_ne_nil _ _)
  rw [pieces, written]
  rcases opcode.toList_remark operands with silent | ⟨rest, remark⟩
  · exact ⟨[], by rw [silent, String.toList_empty, List.append_nil, cut, List.append_nil]⟩
  · exact ⟨rest.splitOn ' ', by rw [remark, List.splitOn_append_cons_self, cut]⟩

theorem pieces_dataText (word : UInt16) :
    pieces (dataText word) = [".word".toList, (decimal word.toNat).toList] := by
  have written : (dataText word).toList = ".word".toList ++ ' ' :: (decimal word.toNat).toList := by
    rw [dataText, String.toList_append]
    rfl
  have clean : ' ' ∉ (decimal word.toNat).toList := fun member =>
    absurd (Text.isDigit_of_mem_decimal member) (by decide)
  rw [pieces, written, List.splitOn_append_cons_self, List.splitOn_eq_singleton clean,
    List.splitOn_eq_singleton (by decide), List.singleton_append]

theorem mem_intercalate {c separator : Char} {words : List (List Char)}
    (member : c ∈ [separator].intercalate words) : c = separator ∨ ∃ word ∈ words, c ∈ word := by
  induction words with
  | nil => cases member
  | cons word rest ih =>
    cases rest with
    | nil => exact .inr ⟨word, by simp, by simpa using member⟩
    | cons next others =>
      rw [List.intercalate_cons_cons, List.mem_append, List.mem_append,
        List.mem_singleton] at member
      rcases member with (here | between) | later
      · exact .inr ⟨word, by simp, here⟩
      · exact .inl between
      · exact (ih later).imp_right fun ⟨other, listed, inside⟩ =>
          ⟨other, List.mem_cons_of_mem _ listed, inside⟩

theorem dataText_injective {word other : UInt16} (same : dataText word = dataText other) :
    word = other := by
  have cut := congrArg pieces same
  rw [pieces_dataText, pieces_dataText] at cut
  have number := (List.cons.inj (List.cons.inj cut).2).1
  exact UInt16.toNat_inj.mp (decimal_injective (String.toList_inj.mp number))

/-- A line is a single line. -/
theorem newline_not_mem_dataText (word : UInt16) : '\n' ∉ (dataText word).toList := by
  intro member
  rw [dataText, String.toList_append, List.mem_append] at member
  rcases member with mark | number
  · exact absurd mark (by decide)
  · exact absurd (Text.isDigit_of_mem_decimal number) (by decide)

theorem newline_not_mem_listed (opcode : Opcode) (operands : List Nat) :
    '\n' ∉ (opcode.listed operands).toList := by
  intro member
  rw [Opcode.listed, String.toList_append, String.toList_intercalate, List.mem_append] at member
  rcases member with front | behind
  · rcases mem_intercalate front with blank | ⟨word, listed, inside⟩
    · exact absurd blank (by decide)
    · obtain ⟨text, written, rfl⟩ := List.mem_map.mp listed
      rcases List.mem_cons.mp written with rfl | operand
      · exact absurd (opcode.isAlphanum_of_mem_mnemonic _ inside) (by decide)
      · obtain ⟨value, _, rfl⟩ := List.mem_map.mp operand
        exact absurd (Operand.isAlphanum_of_mem_shown inside) (by decide)
  · exact opcode.newline_not_mem_remark operands behind

theorem dataText_ne_listed (word : UInt16) (opcode : Opcode) (operands : List Nat) :
    dataText word ≠ opcode.listed operands := by
  intro same
  obtain ⟨rest, cut⟩ := pieces_listed opcode operands
  rw [← same, pieces_dataText] at cut
  have letters := opcode.isAlphanum_of_mem_mnemonic '.'
  rw [← (List.cons.inj cut).1] at letters
  exact absurd (letters (by decide)) (by decide)

/-- A listed operation tells its opcode and its operands. -/
theorem listed_injective {opcode other : Opcode} {operands others : List Nat}
    (complete : operands.length = opcode.arity) (full : others.length = other.arity)
    (same : opcode.listed operands = other.listed others) :
    opcode = other ∧ operands = others := by
  obtain ⟨rest, cut⟩ := pieces_listed opcode operands
  obtain ⟨more, cut'⟩ := pieces_listed other others
  rw [same, cut', List.cons_append, List.cons_append] at cut
  obtain ⟨mnemonic, words⟩ := List.cons.inj cut
  obtain rfl := Opcode.mnemonic_injective (String.toList_inj.mp mnemonic)
  obtain ⟨written, _⟩ := List.append_inj words (by simp [complete, full])
  exact ⟨rfl, ((List.map_inj_right fun _ _ equal =>
    Operand.shown_injective (String.toList_inj.mp equal)).mp written).symm⟩

end Listing

end AdventureMachine
