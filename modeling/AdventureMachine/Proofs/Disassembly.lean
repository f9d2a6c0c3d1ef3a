import AdventureMachine.Proofs.Emission
import AdventureMachine.Proofs.Sweep
import Mathlib.Data.List.Forall2

/-! Listings of assembled programs. A program without raw words is listed as it was written: one line
for each instruction that it emits, in their order and where it emits them, with each argument as
its word denotes it. A label is shown by the address at which it was placed. -/
namespace AdventureMachine

/-- What an argument stands for: a number for itself, a label for the address at which it was
placed. -/
inductive Argument.Denotes (placements : List (Label × Nat)) : Argument → Nat → Prop where
  | number (value : Nat) : Denotes placements (.number (.ofNat value)) value
  | label {name : Label} {address : Nat} (placed : (name, address) ∈ placements) :
      Denotes placements (.label name) address

/-- An argument that is a number fits a word. -/
def Argument.Fits : Argument → Prop
  | .number value => value.UpTo (UInt16.size - 1)
  | .label _ => True

theorem Argument.fits_ofNat {value : Nat} (word : value < UInt16.size) :
    Argument.Fits (.number (.ofNat value)) := ⟨value, rfl, Nat.le_of_lt_succ word⟩

/-- What a listing can give back: labels, texts, input loops and instructions, but no raw words. -/
def Directive.Readable : Directive → Prop
  | .label _ | .print _ => True
  | .instruction _ arguments => ∀ argument ∈ arguments, argument.Fits
  | .readLine first scratch flag => ∀ argument ∈ [first, scratch, flag], argument.Fits
  | .data _ => False

/-- A line shows an emitted instruction: it stands at its address, covers it, and names its
operation and the operands that its arguments stand for. -/
structure Emission.Listed (placements : List (Label × Nat)) (emission : Emission)
    (line : Listing.Line) : Prop where
  address : line.address = .ofNat emission.address
  length : line.length = 1 + emission.arguments.length
  text : ∃ (opcode : Opcode) (operands : List Nat), emission.opcode = .ofNat opcode.code ∧
    List.Forall₂ (Argument.Denotes placements) emission.arguments operands ∧
    line.text = opcode.listed operands

namespace Assembly

theorem exists_opcode {opcode : Number} {count : Nat} (counted : arity? opcode = some count) :
    ∃ known : Opcode, opcode = .ofNat known.code ∧ known.arity = count := by
  unfold arity? at counted
  split at counted
  · obtain ⟨known, found, rfl⟩ := Option.map_eq_some_iff.mp counted
    exact ⟨known, by rw [Opcode.code_eq_of_ofCode? found], rfl⟩
  · cases counted

end Assembly

namespace Listing

variable {words : Array UInt16} {opcode : Opcode} {index : Nat} {operands : List UInt16}

theorem starts_of_holds
    (holds : (Memory.ofWords words).Holds index ((Number.ofNat opcode.code).toWord :: operands))
    (complete : operands.length = opcode.arity) (inside : index + 1 + operands.length ≤ words.size) :
    Starts words opcode index := by
  have bound := holds.inside
  have read := holds.word 0 _ rfl
  rw [List.length_cons] at bound
  rw [Nat.add_zero, Memory.word_ofWords (by omega)] at read
  refine ⟨complete ▸ inside, ?_⟩
  rw [read]
  exact Number.toNat_toWord (by cases opcode <;> decide)

theorem operandsAt_of_holds {word : UInt16}
    (holds : (Memory.ofWords words).Holds index (word :: operands))
    (complete : operands.length = opcode.arity) : operandsAt words opcode index = operands := by
  have bound := holds.inside
  rw [List.length_cons] at bound
  refine List.ext_getElem (by simp [operandsAt, complete]) ?_
  intro position _ within
  have read := holds.word (position + 1) operands[position] (by simp)
  rw [Memory.word_ofWords (by omega)] at read
  simp only [operandsAt, List.getElem_map, List.getElem_range, ← read]
  congr 1
  omega

end Listing

namespace Directive

theorem readable_parts {directive : Directive} (readable : directive.Readable) (address : Nat) :
    ∀ part ∈ directive.parts address, part.Readable := by
  intro part member
  cases directive with
  | print text =>
    obtain ⟨unit, _, rfl⟩ := List.mem_map.mp member
    exact List.forall_mem_singleton.mpr (Argument.fits_ofNat unit.toNat_lt)
  | readLine first scratch flag =>
    obtain ⟨one, two, three⟩ : first.Fits ∧ scratch.Fits ∧ flag.Fits := by
      simpa [Readable] using readable
    have ten : (Argument.literal newline).Fits := Argument.fits_ofNat (by decide)
    have named (name : Label) : (Argument.label name).Fits := trivial
    simp only [parts, readLineLoop, op, List.mem_cons, List.not_mem_nil, or_false] at member
    rcases member with rfl | rfl | rfl | rfl | rfl | rfl | rfl | rfl <;>
      simp [Readable, one, two, three, ten, named]
  | label name => rw [List.mem_singleton.mp member]; exact readable
  | instruction opcode arguments => rw [List.mem_singleton.mp member]; exact readable
  | data words => cases readable

theorem readable_spelled {program : List Directive}
    (readable : ∀ directive ∈ program, directive.Readable) (start : Nat) :
    ∀ directive ∈ spelled start program, directive.Readable := by
  induction program generalizing start with
  | nil => exact fun _ member => absurd member List.not_mem_nil
  | cons directive rest ih =>
    obtain ⟨here, others⟩ := List.forall_mem_cons.mp readable
    exact List.forall_mem_append.mpr ⟨readable_parts here start, ih others _⟩

section Lines

variable {words : Array UInt16} {spot : Label → Nat} {placements : List (Label × Nat)}

/-- The line where an instruction lies shows that instruction. -/
theorem line_of_lies {opcode : Number} {arguments : List Argument} {rest : List Directive}
    {start : Nat} (lies : Lies (.ofWords words) spot start (.instruction opcode arguments :: rest)
      words.size)
    (regular : (Directive.instruction opcode arguments).regular = true)
    (denotes : ∀ argument ∈ arguments, argument.Denotes placements (argument.word spot).toNat) :
    Emission.Listed placements ⟨start, opcode, arguments⟩ (Listing.line words (.ofNat start)) := by
  obtain ⟨known, rfl, arity⟩ := Assembly.exists_opcode (of_decide_eq_true regular)
  cases lies with
  | instruction held behind =>
    have complete : (arguments.map (Argument.word spot)).length = known.arity := by
      rw [List.length_map, arity]
    have ends := behind.start_le
    have starts := Listing.starts_of_holds held complete (by rw [List.length_map]; omega)
    rw [Listing.line_of_starts starts]
    refine ⟨rfl, by rw [Listing.operationLine, arity], known,
      arguments.map fun argument => (argument.word spot).toNat, rfl, ?_, ?_⟩
    · rw [List.forall₂_map_right_iff, List.forall₂_same]
      exact denotes
    · rw [Listing.operationLine, Listing.operandsAt_of_holds held complete, List.map_map]
      rfl

/-- Code that lies in the words is listed line by line, one for each instruction. -/
theorem lines_of_lies {program : List Directive} {start : Nat}
    (lies : Lies (.ofWords words) spot start program words.size)
    (basic : ∀ directive ∈ program, directive.basic = true)
    (regular : ∀ directive ∈ program, directive.regular = true)
    (readable : ∀ directive ∈ program, directive.Readable)
    (denotes : ∀ emission ∈ (located start program).filterMap emission?,
      ∀ argument ∈ emission.arguments, argument.Denotes placements (argument.word spot).toNat)
    {count : Nat} (enough : ((located start program).filterMap emission?).length ≤ count) :
    List.Forall₂ (Emission.Listed placements) ((located start program).filterMap emission?)
      (Listing.lines words (.ofNat start) count) := by
  induction program generalizing start count with
  | nil =>
    cases lies
    rw [Listing.lines_of_le (Nat.le_refl _)]
    exact .nil
  | cons directive rest ih =>
    obtain ⟨_, basics⟩ := List.forall_mem_cons.mp basic
    obtain ⟨good, regulars⟩ := List.forall_mem_cons.mp regular
    obtain ⟨here, others⟩ := List.forall_mem_cons.mp readable
    have later := lies.behind
    cases directive with
    | label name => exact ih later basics regulars others denotes enough
    | instruction opcode arguments =>
      obtain ⟨first, more⟩ := List.forall_mem_cons.mp denotes
      cases count with
      | zero => cases enough
      | succ count =>
        have shown := line_of_lies lies good first
        have inside : start < words.size := by
          have ends := later.start_le
          rw [Directive.size] at ends
          omega
        have next : start + (Listing.line words (.ofNat start)).length =
            start + (Directive.instruction opcode arguments).size := by
          rw [shown.length, Nat.add_comm 1]
          rfl
        rw [Listing.lines_of_lt inside, next]
        exact .cons shown (ih later basics regulars others more (Nat.le_of_succ_le_succ enough))
    | data words => cases here
    | print text => cases basic _ List.mem_cons_self
    | readLine first scratch flag => cases basic _ List.mem_cons_self

end Lines

/-- Every word behind an opcode is what its argument stands for. -/
theorem denotes_arguments {program : List Directive} {words : List UInt16}
    (readable : ∀ directive ∈ program, directive.Readable)
    (built : (Assembly.ofProgram program).words = .ok words) (fits : words.length ≤ memorySize)
    {emission : Emission} (emitted : emission ∈ emissions program) :
    ∀ argument ∈ emission.arguments, argument.Denotes (placements program)
      (argument.word (Assembly.ofProgram program).spot).toNat := by
  intro argument listed
  have numbers : ∀ argument ∈ emission.arguments, argument.Fits :=
    readable_spelled readable 0 _ (mem_of_located (mem_emissions_iff.mp emitted))
  cases argument with
  | number value =>
    obtain ⟨value, rfl, bound⟩ := numbers _ listed
    have kept : (Argument.word (Assembly.ofProgram program).spot (.number (.ofNat value))).toNat =
        value := Number.toNat_toWord (Nat.lt_of_le_pred (by decide) bound)
    rw [kept]
    exact .number value
  | label name =>
    obtain ⟨address, placed⟩ := exists_placement built emitted listed
    obtain ⟨spot, bound⟩ := spot_of_placement built fits placed
    have kept : (Argument.word (Assembly.ofProgram program).spot (.label name)).toNat =
        address := by
      rw [← spot] at bound ⊢
      exact UInt16.toNat_ofNat_of_lt' (Nat.lt_of_le_of_lt (Nat.le_trans bound fits) (by decide))
    rw [kept]
    exact .label placed

/-- Listing a program that was built gives back its instructions, one line for each, in order and at
the addresses where they were emitted, with the operands that their arguments stand for. -/
theorem listing_recovers {program : List Directive} {words : List UInt16} {count : Nat}
    (readable : ∀ directive ∈ program, directive.Readable)
    (built : (Assembly.ofProgram program).words = .ok words) (fits : words.length ≤ memorySize)
    (enough : (emissions program).length ≤ count) :
    List.Forall₂ (Emission.Listed (placements program)) (emissions program)
      (Listing.lines words.toArray (.ofNat 0) count) :=
  lines_of_lies (lies_spelled built fits) (spelled_basic 0 program) (regular_spelled built)
    (readable_spelled readable 0)
    (fun _ emitted => denotes_arguments readable built fits emitted) enough

/-- Greets once for each line that it takes. -/
def greetProgram : List Directive :=
  let start := Text.units "start"
  [.label start, .print (Text.units "Hi"),
    .readLine (.register 0) (.register 1) (.register 2), .op .jmp [.label start]]

/-- The text and the input loop are listed as the instructions they are short for. -/
theorem listing_recovers_greet :
    ∃ words, (Assembly.ofProgram greetProgram).words = .ok words ∧
      List.Forall₂ (Emission.Listed (placements greetProgram)) (emissions greetProgram)
        (Listing.lines words.toArray (.ofNat 0) 9) ∧
      (emissions greetProgram).map Emission.address = [0, 2, 4, 6, 9, 13, 16, 18, 20] := by
  have readable : ∀ directive ∈ greetProgram, directive.Readable := by
    have register {index : Nat} (known : index < registerCount) : (Argument.register index).Fits :=
      Argument.fits_ofNat (Nat.lt_trans (Nat.add_lt_add_left known _) (by decide))
    intro directive member
    simp only [greetProgram, List.mem_cons, List.not_mem_nil, or_false] at member
    rcases member with rfl | rfl | rfl | rfl
    · trivial
    · trivial
    · simp [Readable, register, registerCount]
    · exact List.forall_mem_singleton.mpr trivial
  obtain ⟨words, built, size⟩ :
      ∃ words, (Assembly.ofProgram (spelled 0 greetProgram)).words = .ok words ∧
        words.length = ((spelled 0 greetProgram).map Directive.size).sum := by
    apply Assembly.exists_words <;> decide +kernel
  rw [Assembly.ofProgram_spelled] at built
  have fits : words.length ≤ memorySize := by
    rw [size]
    decide +kernel
  have enough : (emissions greetProgram).length ≤ 9 := by decide +kernel
  exact ⟨words, built, listing_recovers readable built fits enough, by decide +kernel⟩

end Directive

end AdventureMachine
