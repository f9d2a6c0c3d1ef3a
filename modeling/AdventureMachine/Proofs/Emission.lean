import AdventureMachine.Proofs.Compiler
import AdventureMachine.Proofs.ControlFlow

/-! Where a program emits its instructions and places its labels, counted in words from its start.
Texts and input loops are written out first. In a program that was built, every reference to a label
holds the one address at which the label was placed. As an operand it denotes that address, unless
that is the address behind memory: there the reference reads as the first register. -/
namespace AdventureMachine

/-- An instruction at the address it is emitted at. -/
structure Emission where
  address : Nat
  opcode : Number
  arguments : List Argument
deriving DecidableEq

namespace Directive

/-- What a directive at an address is short for: one `out` for each unit of a text, or the loop that
takes a line. -/
def parts (address : Nat) : Directive → List Directive
  | .print text => text.map fun unit => .op .output [.literal unit.toNat]
  | .readLine first scratch flag => readLineLoop address first scratch flag
  | directive => [directive]

/-- A program with its texts and input loops written out. -/
def spelled (start : Nat) : List Directive → List Directive
  | [] => []
  | directive :: rest => directive.parts start ++ spelled (start + directive.size) rest

/-- The directives of a program, each with the address it stands at. -/
def located (start : Nat) : List Directive → List (Nat × Directive)
  | [] => []
  | directive :: rest => (start, directive) :: located (start + directive.size) rest

/-- The instruction that a directive emits at an address. -/
def emission? : Nat × Directive → Option Emission
  | (address, .instruction opcode arguments) => some ⟨address, opcode, arguments⟩
  | _ => none

/-- The label that a directive places at an address. -/
def placement? : Nat × Directive → Option (Label × Nat)
  | (address, .label name) => some (name, address)
  | _ => none

/-- The instructions that a program emits, in their order. -/
def emissions (program : List Directive) : List Emission :=
  (located 0 (spelled 0 program)).filterMap emission?

/-- The labels that a program places, each with its address. -/
def placements (program : List Directive) : List (Label × Nat) :=
  (located 0 (spelled 0 program)).filterMap placement?

/-- A directive that is short for nothing else. -/
def basic : Directive → Bool
  | .print _ | .readLine .. => false
  | _ => true

theorem parts_basic (directive : Directive) (address : Nat) :
    ∀ part ∈ directive.parts address, part.basic = true := by
  intro part member
  cases directive with
  | print text =>
    obtain ⟨unit, _, rfl⟩ := List.mem_map.mp member
    rfl
  | readLine first scratch flag =>
    simp only [parts, readLineLoop, op, List.mem_cons, List.not_mem_nil, or_false] at member
    rcases member with rfl | rfl | rfl | rfl | rfl | rfl | rfl | rfl <;> rfl
  | label name => rw [List.mem_singleton.mp member]; rfl
  | instruction opcode arguments => rw [List.mem_singleton.mp member]; rfl
  | data words => rw [List.mem_singleton.mp member]; rfl

theorem spelled_basic (start : Nat) (program : List Directive) :
    ∀ directive ∈ spelled start program, directive.basic = true := by
  induction program generalizing start with
  | nil => exact fun _ member => absurd member List.not_mem_nil
  | cons directive rest ih =>
    exact List.forall_mem_append.mpr ⟨directive.parts_basic start, ih _⟩

theorem exists_located {program : List Directive} {directive : Directive} (start : Nat)
    (member : directive ∈ program) : ∃ address, (address, directive) ∈ located start program := by
  induction program generalizing start with
  | nil => cases member
  | cons first rest ih =>
    rcases List.mem_cons.mp member with rfl | behind
    · exact ⟨start, List.mem_cons_self⟩
    · obtain ⟨address, found⟩ := ih (start + first.size) behind
      exact ⟨address, List.mem_cons_of_mem _ found⟩

theorem mem_of_located {program : List Directive} {directive : Directive} {start address : Nat}
    (found : (address, directive) ∈ located start program) : directive ∈ program := by
  induction program generalizing start with
  | nil => cases found
  | cons first rest ih =>
    rcases List.mem_cons.mp found with same | behind
    · cases same
      exact List.mem_cons_self
    · exact List.mem_cons_of_mem _ (ih behind)

theorem mem_emissions_iff {program : List Directive} {emission : Emission} :
    emission ∈ emissions program ↔
      (emission.address, .instruction emission.opcode emission.arguments) ∈
        located 0 (spelled 0 program) := by
  constructor
  · intro member
    obtain ⟨⟨address, directive⟩, found, same⟩ := List.mem_filterMap.mp member
    cases directive with
    | instruction opcode arguments =>
      cases same
      exact found
    | _ => cases same
  · intro found
    exact List.mem_filterMap.mpr ⟨_, found, rfl⟩

theorem mem_placements_iff {program : List Directive} {name : Label} {address : Nat} :
    (name, address) ∈ placements program ↔
      (address, .label name) ∈ located 0 (spelled 0 program) := by
  constructor
  · intro member
    obtain ⟨⟨place, directive⟩, found, same⟩ := List.mem_filterMap.mp member
    cases directive with
    | label other =>
      cases same
      exact found
    | _ => cases same
  · intro found
    exact List.mem_filterMap.mpr ⟨_, found, rfl⟩

end Directive

namespace Assembly

variable {assembly : Assembly}

theorem address_add (directive : Directive) :
    (assembly.add directive).address = assembly.address + directive.size := by
  cases directive with
  | label name => rfl
  | instruction opcode arguments => exact address_emit opcode arguments
  | data words => exact address_data words
  | print text => exact (assembly.adds_print text).address
  | readLine first scratch flag =>
    have placed (assembly : Assembly) (name : Label) :
        (assembly.place name).address = assembly.address := rfl
    simp only [add, readLine, emitOp, placed, address_emit, List.length_cons, List.length_nil,
      Directive.size]

theorem foldl_parts (directive : Directive) :
    (directive.parts assembly.address).foldl add assembly = assembly.add directive := by
  cases directive with
  | print text => exact (add_print text).symm
  | _ => rfl

/-- Written out or not, a program assembles to the same. -/
theorem foldl_spelled {start : Nat} (here : assembly.address = start) (program : List Directive) :
    (Directive.spelled start program).foldl add assembly = program.foldl add assembly := by
  induction program generalizing assembly start with
  | nil => rfl
  | cons directive rest ih =>
    subst here
    rw [Directive.spelled, List.foldl_append, foldl_parts, List.foldl_cons,
      ih (address_add directive)]

theorem ofProgram_spelled (program : List Directive) :
    ofProgram (Directive.spelled 0 program) = ofProgram program := foldl_spelled rfl program

/-- A basic directive after which there is no mistake made none. -/
theorem regular_of_add {directive : Directive} (basic : directive.basic = true)
    (correct : (assembly.add directive).problems = #[]) :
    assembly.problems = #[] ∧ directive.regular = true := by
  have pushed {problem : Problem} : assembly.problems.push problem ≠ #[] := fun none =>
    absurd (congrArg Array.size none) (by simp)
  cases directive with
  | label name =>
    simp only [add, place] at correct
    split at correct
    · exact absurd correct pushed
    · exact ⟨correct, rfl⟩
  | instruction opcode arguments =>
    simp only [add, emit] at correct
    split at correct
    · exact ⟨correct, decide_eq_true ‹_›⟩
    · exact absurd correct pushed
  | data words => exact ⟨correct, rfl⟩
  | print text => cases basic
  | readLine first scratch flag => cases basic

theorem regular_of_foldl {program : List Directive}
    (basic : ∀ directive ∈ program, directive.basic = true)
    (correct : (program.foldl add assembly).problems = #[]) :
    assembly.problems = #[] ∧ ∀ directive ∈ program, directive.regular = true := by
  induction program generalizing assembly with
  | nil => exact ⟨correct, fun _ member => absurd member List.not_mem_nil⟩
  | cons directive rest ih =>
    obtain ⟨here, others⟩ := List.forall_mem_cons.mp basic
    obtain ⟨next, regular⟩ := ih others correct
    obtain ⟨first, good⟩ := regular_of_add here next
    exact ⟨first, List.forall_mem_cons.mpr ⟨good, regular⟩⟩

/-- An image that is read back holds the words it was built from. -/
theorem words_of_image {image : Bytes} {words : List UInt16} (built : assembly.image = .ok image)
    (accepted : Image.decode image = .ok words) :
    assembly.words = .ok words ∧ words.length ≤ memorySize := by
  cases resolved : assembly.words with
  | error failure =>
    rw [Assembly.image, resolved] at built
    cases built
  | ok written =>
    rw [Assembly.image, resolved] at built
    cases built
    obtain ⟨rfl, fits⟩ := Image.decode_encode_ok accepted
    exact ⟨rfl, fits⟩

theorem image_of_words {words : List UInt16} (built : assembly.words = .ok words)
    (fits : words.length ≤ memorySize) :
    assembly.image = .ok (Image.encode words) ∧ Image.decode (Image.encode words) = .ok words := by
  constructor
  · rw [image, built]
    rfl
  · exact Image.decode_encode (Image.length_encode_le_iff.mpr fits)

end Assembly

namespace Memory

theorem Holds.getElem? {words held : List UInt16} {start : Nat}
    (holds : (ofWords words.toArray).Holds start held) {index : Nat} {word : UInt16}
    (found : held[index]? = some word) (inside : start + index < words.length) :
    words[start + index]? = some word := by
  have bound := holds.inside
  have behind := (List.getElem?_eq_some_iff.mp found).1
  have read := holds.word index word found
  rw [word_ofWords (by omega)] at read
  rw [List.getElem?_eq_getElem inside, ← read]
  simp [inside]

end Memory

namespace Lies

variable {memory : Memory} {spot : Label → Nat}

theorem behind {directive : Directive} {rest : List Directive} {start stop : Nat}
    (lies : Lies memory spot start (directive :: rest) stop) :
    Lies memory spot (start + directive.size) rest stop := by
  obtain ⟨middle, first, others⟩ := Lies.split (List.singleton_append ▸ lies)
  obtain rfl : middle = start + directive.size := first.stop_eq
  exact others

/-- What is located at an address lies there. -/
theorem of_located {program : List Directive} {start stop address : Nat} {directive : Directive}
    (lies : Lies memory spot start program stop)
    (found : (address, directive) ∈ Directive.located start program) :
    ∃ rest, Lies memory spot address (directive :: rest) stop := by
  induction program generalizing start with
  | nil => cases found
  | cons first rest ih =>
    rcases List.mem_cons.mp found with same | later
    · cases same
      exact ⟨rest, lies⟩
    · exact ih lies.behind later

end Lies

namespace Directive

section Built

variable {program : List Directive} {words : List UInt16}
  (built : (Assembly.ofProgram program).words = .ok words)

include built

theorem regular_spelled : ∀ directive ∈ spelled 0 program, directive.regular = true := by
  have correct := (Assembly.words_ok built).1
  rw [← Assembly.ofProgram_spelled] at correct
  exact (Assembly.regular_of_foldl (spelled_basic 0 program) correct).2

/-- Every label that an instruction refers to was placed, where references to it are resolved. -/
theorem exists_placement {emission : Emission} {name : Label}
    (emitted : emission ∈ emissions program) (refers : .label name ∈ emission.arguments) :
    ∃ address, (name, address) ∈ placements program := by
  have inside := mem_of_located (mem_emissions_iff.mp emitted)
  have named : name ∈ (spelled 0 program).flatMap referred :=
    List.mem_flatMap.mpr ⟨_, inside, List.mem_filterMap.mpr ⟨_, refers, rfl⟩⟩
  have written := built
  rw [← Assembly.ofProgram_spelled] at written
  obtain ⟨directive, member, placed⟩ :=
    List.mem_flatMap.mp (Assembly.referred_placed written (regular_spelled built) named)
  cases directive with
  | label other =>
    obtain rfl := List.mem_singleton.mp placed
    obtain ⟨address, found⟩ := exists_located 0 member
    exact ⟨address, mem_placements_iff.mpr found⟩
  | _ => cases placed

variable (fits : words.length ≤ memorySize)

include fits

theorem lies_spelled : Lies (.ofWords words.toArray) (Assembly.ofProgram program).spot 0
    (spelled 0 program) words.length := by
  have written := built
  rw [← Assembly.ofProgram_spelled] at written ⊢
  exact Assembly.lies_ofProgram written fits

/-- A label is placed once, inside the program or right behind it. -/
theorem spot_of_placement {name : Label} {address : Nat}
    (placed : (name, address) ∈ placements program) :
    (Assembly.ofProgram program).spot name = address ∧ address ≤ words.length := by
  obtain ⟨rest, lies⟩ := (lies_spelled built fits).of_located
    (mem_placements_iff.mp placed)
  refine ⟨?_, lies.start_le⟩
  cases lies with
  | label placed _ => exact placed

/-- An instruction stands at its address with its labels resolved. -/
theorem holds_emission {emission : Emission} (emitted : emission ∈ emissions program) :
    (Memory.ofWords words.toArray).Holds emission.address (emission.opcode.toWord ::
        emission.arguments.map (Argument.word (Assembly.ofProgram program).spot)) ∧
      emission.address + (emission.arguments.length + 1) ≤ words.length := by
  obtain ⟨rest, lies⟩ := (lies_spelled built fits).of_located
    (mem_emissions_iff.mp emitted)
  cases lies with
  | instruction held behind => exact ⟨held, behind.start_le⟩

/-- The cell of a reference holds the address at which its label was placed. -/
theorem reference_placed {emission : Emission} {position : Nat} {name : Label}
    (emitted : emission ∈ emissions program)
    (refers : emission.arguments[position]? = some (.label name)) :
    ∃ address, (∀ other, (name, other) ∈ placements program ↔ other = address) ∧
      address ≤ words.length ∧
      words[emission.address + 1 + position]? = some (.ofNat address) := by
  obtain ⟨address, placed⟩ := exists_placement built emitted (List.mem_of_getElem? refers)
  obtain ⟨spot, bound⟩ := spot_of_placement built fits placed
  obtain ⟨held, ends⟩ := holds_emission built fits emitted
  have inside := (List.getElem?_eq_some_iff.mp refers).1
  refine ⟨address, ?_, bound, ?_⟩
  · intro other
    refine ⟨fun again => (spot_of_placement built fits again).1.symm.trans spot, ?_⟩
    rintro rfl
    exact placed
  · rw [Nat.add_assoc, Nat.add_comm 1]
    apply held.getElem? ?_ (by omega)
    rw [List.getElem?_cons_succ, List.getElem?_map, refers, ← spot]
    rfl

end Built

/-- An address is a literal, up to the one behind memory, which names the first register. -/
theorem load_address (registers : Registers) {address : Nat} (bound : address ≤ memorySize) :
    registers.load (.ofWord (.ofNat address)) =
      .ok (if address < memorySize then .ofNat address else .ofWord (registers.get 0)) := by
  have limits := word_limits
  have kept : (UInt16.ofNat address).toNat = address :=
    UInt16.toNat_ofNat_of_lt' (Nat.lt_of_le_of_lt bound (by decide))
  rw [Number.ofWord, kept]
  by_cases inside : address < memorySize
  · rw [if_pos inside, registers.load_literal (by omega)]
  · obtain rfl : address = memorySize := by omega
    rfl

/-- In an accepted image, a reference to a label holds the one address at which that label was
placed, and denotes it whatever the registers hold. Only a label behind the last cell of memory is
out of reach: its references read the first register instead. -/
theorem references_resolve {program : List Directive} {image : Bytes} {words : List UInt16}
    (built : (Assembly.ofProgram program).image = .ok image)
    (accepted : Image.decode image = .ok words) {emission : Emission} {position : Nat} {name : Label}
    (emitted : emission ∈ emissions program)
    (refers : emission.arguments[position]? = some (.label name)) :
    ∃ address word, (∀ other, (name, other) ∈ placements program ↔ other = address) ∧
      address ≤ words.length ∧ words.length ≤ memorySize ∧
      words[emission.address + 1 + position]? = some word ∧
      ∀ registers : Registers, registers.load (.ofWord word) =
        .ok (if address < memorySize then .ofNat address else .ofWord (registers.get 0)) := by
  obtain ⟨resolved, fits⟩ := Assembly.words_of_image built accepted
  obtain ⟨address, placed, bound, held⟩ := reference_placed resolved fits emitted refers
  exact ⟨address, .ofNat address, placed, bound, fits, held,
    fun registers => load_address registers (Nat.le_trans bound fits)⟩

/-- The name of the label behind a program. -/
def endLabel : Label := Text.units "end"

/-- Writes its input until a unit is zero. -/
def echoProgram : List Directive :=
  let loop := Text.units "loop"
  [.label loop, .op .input [.register 0], .op .output [.register 0],
    .op .jf [.register 0, .label endLabel], .op .jmp [.label loop], .label endLabel]

/-- The reference forward to the end of the program denotes the address behind its last word. -/
theorem references_resolve_echo :
    ∃ image words, (Assembly.ofProgram echoProgram).image = .ok image ∧
      Image.decode image = .ok words ∧ ∃ word, words[6]? = some word ∧
        ∀ registers : Registers, registers.load (.ofWord word) = .ok (.ofNat 9) := by
  obtain ⟨words, resolved, size⟩ : ∃ words, (Assembly.ofProgram echoProgram).words = .ok words ∧
      words.length = (echoProgram.map Directive.size).sum := by
    apply Assembly.exists_words <;> decide +kernel
  have fits : words.length ≤ memorySize := by
    rw [size]
    decide
  obtain ⟨built, accepted⟩ := Assembly.image_of_words resolved fits
  let branch : Emission := ⟨4, .ofNat Opcode.jf.code, [.register 0, .label endLabel]⟩
  have emitted : branch ∈ emissions echoProgram := by decide +kernel
  have refers : branch.arguments[1]? = some (.label endLabel) := rfl
  obtain ⟨address, word, placed, _, _, held, denotes⟩ :=
    references_resolve built accepted emitted refers
  obtain rfl : 9 = address := (placed 9).mp (by decide +kernel)
  exact ⟨_, words, built, accepted, word, held, denotes⟩

/-- A program that fills memory and jumps to a label behind its last word. -/
def fullProgram : List Directive :=
  [.op .jmp [.label endLabel], .print (List.replicate 16383 97), .label endLabel]

/-- The label of the full program was placed at 32768, but while the registers are zero the reference
to it denotes zero. -/
theorem fullProgram_reads_register :
    ∃ image words, (Assembly.ofProgram fullProgram).image = .ok image ∧
      Image.decode image = .ok words ∧
      ⟨0, .ofNat Opcode.jmp.code, [.label endLabel]⟩ ∈ emissions fullProgram ∧
      (endLabel, 32768) ∈ placements fullProgram ∧
      ∃ word, words[1]? = some word ∧ Registers.zero.load (.ofWord word) = .ok 0 := by
  have regular : ∀ directive ∈ fullProgram, directive.regular = true := by
    intro directive member
    simp only [fullProgram, List.mem_cons, List.not_mem_nil, or_false] at member
    rcases member with rfl | rfl | rfl <;> rfl
  have distinct : (fullProgram.flatMap Directive.placed).Nodup := List.pairwise_singleton _ _
  obtain ⟨words, resolved, size⟩ := Assembly.exists_words regular distinct fun _ named => named
  have full : words.length = 32768 := by
    rw [size]
    simp only [fullProgram, op, Directive.size, List.map_cons, List.map_nil, List.sum_cons,
      List.sum_nil, List.length_replicate, List.length_cons, List.length_nil]
    rfl
  have fits : words.length ≤ memorySize := Nat.le_of_eq full
  obtain ⟨built, accepted⟩ := Assembly.image_of_words resolved fits
  let jump : Emission := ⟨0, .ofNat Opcode.jmp.code, [.label endLabel]⟩
  have emitted : jump ∈ emissions fullProgram := mem_emissions_iff.mpr (.head _)
  have refers : jump.arguments[0]? = some (.label endLabel) := rfl
  obtain ⟨address, placed, _, held⟩ := reference_placed resolved fits emitted refers
  have last : (Assembly.ofProgram fullProgram).spot endLabel = words.length := by
    cases Assembly.lies_ofProgram resolved fits with
    | instruction _ behind =>
      cases behind with
      | print _ behind =>
        cases behind with
        | label placed behind =>
          cases behind
          exact placed
  obtain rfl : address = 32768 := by
    rw [← full, ← last]
    exact (spot_of_placement resolved fits ((placed _).mpr rfl)).1.symm
  exact ⟨_, words, built, accepted, emitted, (placed _).mpr rfl, _, held, rfl⟩

end Directive

end AdventureMachine
