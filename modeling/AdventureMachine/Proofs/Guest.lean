import AdventureMachine.Adventure
import AdventureMachine.World.Compile
import AdventureMachine.Proofs.Execution
import AdventureMachine.Proofs.Layout
import AdventureMachine.Proofs.Progress
import AdventureMachine.Proofs.Text

/-! How the code of a guest program runs. A guest is what the code can tell of its machine: where
it stands, the unit it has just read, the input it will see and the output it has written. Each
piece of code that lies in memory leads a guest from one such state to another, on every machine
that hosts it, and pieces compose. -/
namespace AdventureMachine

open Text (lineFeed)

namespace BufferedInput

/-- A guest will see these bytes, and behind them whatever is queued later. -/
def Offers (input : BufferedInput) (bytes : Bytes) : Prop :=
  ∀ chunk, (input.append chunk).visible = bytes ++ ByteSource.seen chunk

theorem Offers.visible {input : BufferedInput} {bytes : Bytes} (offers : Offers input bytes) :
    input.visible = bytes := by
  rw [← visible_append_nil, offers []]
  exact List.append_nil bytes

theorem offers_ofBytes (bytes : Bytes) : Offers (ofBytes bytes 0) (ByteSource.seen bytes) := by
  intro chunk
  have start : min 0 (bytes.length : Int) = 0 := by omega
  simp only [BufferedInput.visible, upcoming, append, ofBytes, start, Int.le_refl, ↓reduceIte,
    ByteBuffer.toList_append, ByteBuffer.toList_ofList, Int.toNat_zero, List.drop_zero,
    List.filter_append, ByteSource.seen]

theorem Offers.append {input : BufferedInput} {bytes : Bytes} (offers : Offers input bytes)
    (chunk : Bytes) : Offers (input.append chunk) (bytes ++ ByteSource.seen chunk) := by
  intro later
  rw [visible_append_append, offers, ByteSource.seen, List.filter_append, List.append_assoc]
  rfl

/-- A read takes the first byte on offer and leaves the others on offer. -/
theorem Offers.read {input : BufferedInput} {bytes : Bytes} (offers : Offers input bytes) :
    ∃ rest, ByteSource.readVisible input = (.ok bytes.head?, rest) ∧ Offers rest bytes.tail := by
  obtain ⟨answer, taken⟩ := readVisible_visible input
  rw [offers.visible] at answer taken
  refine ⟨_, Prod.ext answer rfl, ?_⟩
  intro chunk
  have now := taken chunk
  rw [offers chunk] at now
  cases bytes with
  | nil => exact now.symm
  | cons byte others => exact (List.cons.inj now).2.symm

end BufferedInput

/-- What the code of a program can tell of its machine. -/
structure Guest where
  pc : Nat
  /-- The unit in the second register. -/
  unit : UInt8
  /-- The bytes that reads will answer with. -/
  input : Bytes
  output : Bytes
  /-- How much of the output was taken by a reader. -/
  taken : Int

/-- The machine shows a guest, with the program in its memory. -/
structure Hosts (memory : Memory) (machine : Adventure) (guest : Guest) : Prop where
  memory : machine.memory = memory
  counter : machine.pc = .ofNat guest.pc
  unit : machine.registers.get 1 = guest.unit.toUInt16
  source : machine.source.Offers guest.input
  output : machine.sink.bytes = guest.output
  taken : machine.sink.cursor = guest.taken

/-- Every machine that hosts the one guest commits steps until it hosts the other. -/
def Leads (memory : Memory) (guest last : Guest) : Prop :=
  ∀ machine, Hosts memory machine guest →
    ∃ count next, Machine.Commits count machine next ∧ Hosts memory next last

variable {memory : Memory} {spot : Label → Nat}

theorem Leads.refl (guest : Guest) : Leads memory guest guest :=
  fun machine hosts => ⟨0, machine, .stay machine, hosts⟩

theorem Leads.trans {guest middle last : Guest} (first : Leads memory guest middle)
    (second : Leads memory middle last) : Leads memory guest last := by
  intro machine hosts
  obtain ⟨count, next, commits, hosted⟩ := first machine hosts
  obtain ⟨more, final, others, reached⟩ := second next hosted
  exact ⟨more + count, final, commits.trans others, reached⟩

/-- One committed step. -/
theorem Leads.one {guest last : Guest}
    (stepped : ∀ machine, Hosts memory machine guest →
      ∃ next, machine.step = (next, .ok none) ∧ Hosts memory next last) :
    Leads memory guest last := by
  intro machine hosts
  obtain ⟨next, committed, hosted⟩ := stepped machine hosts
  exact ⟨1, next, .step committed (.stay next), hosted⟩

theorem Instruction.decode_congr {opcode : Opcode} {operand other : Nat → UInt16}
    (same : ∀ position < opcode.arity, operand position = other position) :
    decode opcode operand = decode opcode other := by
  cases opcode <;> simp [decode, Opcode.arity] at same ⊢ <;> simp [same]

/-- The word of an opcode of the machine. -/
def Opcode.word (opcode : Opcode) : UInt16 := (Number.ofNat opcode.code).toWord

theorem Opcode.toNat_word (opcode : Opcode) : opcode.word.toNat = opcode.code :=
  Number.toNat_toWord (by cases opcode <;> decide)

/-- The instruction that memory holds at the program counter is fetched. -/
theorem State.fetch_of_holds {state : State} {opcode : Opcode} {operands : List UInt16}
    {start : Nat} (counter : state.pc = .ofNat start)
    (held : state.memory.Holds start (opcode.word :: operands))
    (count : operands.length = opcode.arity) :
    state.fetch = .ok (.decode opcode fun position => operands.getD position 0,
      start + (operands.length + 1)) := by
  have bound := held.inside
  have fetches : state.Fetches opcode start := by
    refine ⟨counter, ?_, ?_⟩
    · rw [List.length_cons] at bound
      omega
    · have first := held.word 0 _ rfl
      rw [Nat.add_zero] at first
      rw [first, Opcode.toNat_word]
  have decoded : Instruction.decode opcode
      (fun position => state.memory.word (start + 1 + position)) =
      .decode opcode fun position => operands.getD position 0 := by
    apply Instruction.decode_congr
    intro position inside
    have found : (opcode.word :: operands)[position + 1]? = some (operands.getD position 0) := by
      rw [List.getElem?_cons_succ, List.getD_eq_getElem?_getD,
        List.getElem?_eq_getElem (count ▸ inside), Option.getD_some]
    rw [← held.word _ _ found]
    congr 1
    omega
  have next : start + (operands.length + 1) = start + 1 + opcode.arity := by omega
  rw [next, ← decoded]
  exact fetches.fetch_eq

/-- A machine executes the instruction that its memory holds at the program counter. -/
theorem Machine.step_of_holds {σ τ : Type} [ByteSource σ] [ByteSink τ] {machine : Machine σ τ}
    {opcode : Opcode} {operands : List UInt16} {start : Nat} {action : Action}
    (counter : machine.pc = .ofNat start)
    (held : machine.memory.Holds start (opcode.word :: operands))
    (count : operands.length = opcode.arity)
    (planned : machine.toState.plan (.decode opcode fun position => operands.getD position 0) =
      .ok action) :
    machine.step = machine.perform (start + (operands.length + 1)) action :=
  step_of_plan (State.fetch_of_holds counter held count) planned

theorem Hosts.step {machine : Adventure} {guest : Guest} {opcode : Opcode}
    {operands : List UInt16} {action : Action} (hosts : Hosts memory machine guest)
    (held : memory.Holds guest.pc (opcode.word :: operands))
    (count : operands.length = opcode.arity)
    (planned : machine.toState.plan (.decode opcode fun position => operands.getD position 0) =
      .ok action) :
    machine.step = machine.perform (guest.pc + (operands.length + 1)) action := by
  rw [← hosts.memory] at held
  exact Machine.step_of_holds hosts.counter held count planned

theorem Lies.op {opcode : Opcode} {arguments : List Argument} {rest : List Directive}
    {start stop : Nat} (lies : Lies memory spot start (.op opcode arguments :: rest) stop) :
    memory.Holds start (opcode.word :: arguments.map (Argument.word spot)) ∧
      Lies memory spot (start + (arguments.length + 1)) rest stop := by
  cases lies with
  | instruction held behind => exact ⟨held, behind⟩

theorem Number.toWord_ofNat (value : Nat) : (Number.ofNat value).toWord = .ofNat value := by
  apply UInt16.toNat_inj.mp
  simp only [toWord, truncate, UInt16.ofInt, UInt16.toNat_ofNat', Int.ofNat_eq_natCast]
  omega

namespace Argument

variable (spot)

@[simp]
theorem word_literal (value : Nat) : (literal value).word spot = .ofNat value :=
  Number.toWord_ofNat value

theorem toNat_word_register (index : Fin registerCount) :
    ((register index).word spot).toNat = firstRegister + index := by
  have limits := word_limits
  have bound := index.isLt
  rw [word, register, cell, Cell.resolved, Number.toNat_toWord (by omega)]

theorem register_named (index : Fin registerCount) :
    firstRegister ≤ ((register index).word spot).toNat ∧
      ((register index).word spot).toNat ≤ lastOperand := by
  have limits := word_limits
  have bound := index.isLt
  rw [toNat_word_register]
  omega

theorem registerAt_register (index : Fin registerCount) :
    Operand.registerAt ((register index).word spot).toNat = index := by
  apply Fin.ext
  simp only [Operand.registerAt, toNat_word_register, Nat.add_sub_cancel_left]
  exact Nat.mod_eq_of_lt index.isLt

theorem wordDestination_register (index : Fin registerCount) :
    Operand.wordDestination ((register index).word spot) = .ok index := by
  obtain ⟨low, high⟩ := register_named spot index
  rw [Operand.wordDestination_of_le low high, registerAt_register]

theorem resolve_register (registers : Registers) (index : Fin registerCount) :
    registers.resolve ((register index).word spot) = .ok (registers.get index) := by
  have limits := word_limits
  obtain ⟨low, high⟩ := register_named spot index
  rw [Registers.resolve, if_neg (by omega), Operand.wordRegister?_of_le low high,
    registerAt_register]

end Argument

section Blocks

variable {start stop : Nat} {rest : List Directive} {unit : UInt8} {input output : Bytes}
  {taken : Int}

theorem toNat_ofNat_of_inside {address : Nat} (inside : address < memorySize) :
    (UInt16.ofNat address).toNat = address := by
  have limits := word_limits
  exact UInt16.toNat_ofNat_of_lt' (by omega)

namespace State

theorem plan_jump (state : State) {target : Nat} (inside : target < memorySize) :
    state.plan (.jump (.ofNat target)) = .ok (.jump (.ofNat target)) := by
  have same := toNat_ofNat_of_inside inside
  simp only [State.plan, state.registers.resolve_literal (same ▸ Nat.le_of_lt_succ inside)]
  rfl

/-- A byte is received for the register that is named. -/
theorem plan_receive (state : State) (spot : Label → Nat) (index : Fin registerCount) :
    state.plan (.input ((Argument.register index).word spot)) = .ok (.receive index) := by
  simp only [State.plan, Argument.wordDestination_register]
  rfl

/-- A literal in one register is copied to another. -/
theorem plan_copy {state : State} (spot : Label → Nat) (target source : Fin registerCount)
    {value : UInt16} (held : state.registers.get source = value)
    (literal : value.toNat ≤ maxLiteral) :
    state.plan (.set ((Argument.register target).word spot)
      ((Argument.register source).word spot)) = .ok (.assign target value) := by
  simp only [State.plan, Argument.resolve_register, held, bind, Except.bind, State.assignment,
    state.registers.resolve_literal literal, Argument.wordDestination_register]
  rfl

/-- The outcome of a test of a byte in a register. -/
theorem plan_compare {state : State} (spot : Label → Nat) (outcome tested : Fin registerCount)
    {unit : UInt8} {value : Nat} (held : state.registers.get tested = unit.toUInt16)
    (literal : value ≤ maxLiteral) :
    state.plan (.binary .eq ((Argument.register outcome).word spot)
        ((Argument.register tested).word spot) (.ofNat value)) =
      .ok (.assign outcome (if unit.toNat = value then 1 else 0)) := by
  have limits := word_limits
  have same : (UInt16.ofNat value).toNat = value := UInt16.toNat_ofNat_of_lt' (by omega)
  have right := state.registers.resolve_literal (same.symm ▸ literal)
  have equal : unit.toUInt16 = .ofNat value ↔ unit.toNat = value := by
    rw [← UInt16.toNat_inj, same, UInt8.toNat_toUInt16]
  have small : (if unit.toNat = value then (1 : UInt16) else 0).toNat ≤ maxLiteral := by
    split <;> decide
  simp only [State.plan, Argument.resolve_register, held, right, bind, Except.bind, Binary.apply,
    equal, State.assignment, state.registers.resolve_literal small,
    Argument.wordDestination_register]
  rfl

/-- A branch on the outcome of a test. -/
theorem plan_branch_register {state : State} (spot : Label → Nat) (outcome : Fin registerCount)
    {target : Nat} {met : Prop} [Decidable met]
    (held : state.registers.get outcome = if met then 1 else 0) (inside : target < memorySize) :
    state.plan (.branch true ((Argument.register outcome).word spot) (.ofNat target)) =
      .ok (if met then .jump (.ofNat target) else .advance) := by
  have same := toNat_ofNat_of_inside inside
  have right := state.registers.resolve_literal (same ▸ Nat.le_of_lt_succ inside)
  have condition : state.registers.resolve ((Argument.register outcome).word spot) =
      .ok (if met then 1 else 0) := by
    rw [← held]
    exact Argument.resolve_register spot state.registers outcome
  rw [State.plan_branch condition]
  by_cases holds : met
  · simp only [holds, ↓reduceIte, State.plan, right]
    rfl
  · simp only [holds, ↓reduceIte]
    rfl

end State

theorem Lies.leads_jump {target : Label}
    (lies : Lies memory spot start (.op .jmp [.label target] :: rest) stop)
    (inside : spot target < memorySize) :
    Leads memory ⟨start, unit, input, output, taken⟩ ⟨spot target, unit, input, output, taken⟩ := by
  apply Leads.one
  intro machine hosts
  refine ⟨_, hosts.step lies.op.1 rfl (machine.toState.plan_jump inside), ?_⟩
  exact ⟨hosts.memory, congrArg Number.ofNat (toNat_ofNat_of_inside inside), hosts.unit,
    hosts.source, hosts.output, hosts.taken⟩

theorem Lies.leads_emit {value : UInt16}
    (lies : Lies memory spot start (.op .output [.literal value.toNat] :: rest) stop)
    (literal : value.toNat ≤ maxLiteral) :
    Leads memory ⟨start, unit, input, output, taken⟩
      ⟨start + 2, unit, input, output ++ [value.toUInt8], taken⟩ := by
  apply Leads.one
  intro machine hosts
  have planned : machine.toState.plan (.output value) = .ok (.emit value.toUInt8) := by
    simp only [State.plan, machine.registers.resolve_literal literal]
    rfl
  have held := lies.op.1
  simp only [List.map_cons, List.map_nil, Argument.word_literal, UInt16.ofNat_toNat] at held
  have written : (machine.sink.write value.toUInt8).bytes = output ++ [value.toUInt8] := by
    have earlier : machine.sink.bytes = output := hosts.output
    rw [← earlier]
    exact BufferedOutput.record.accepted rfl
  refine ⟨_, hosts.step held rfl planned, ?_⟩
  exact ⟨hosts.memory, rfl, hosts.unit, hosts.source, written, hosts.taken⟩

/-- A text is written unit by unit. -/
theorem Lies.leads_written {text : List UInt16}
    (lies : Lies memory spot start (text.map fun unit => .op .output [.literal unit.toNat]) stop)
    (literal : ∀ value ∈ text, value.toNat ≤ maxLiteral) :
    Leads memory ⟨start, unit, input, output, taken⟩
      ⟨stop, unit, input, output ++ text.map UInt16.toUInt8, taken⟩ := by
  induction text generalizing start output with
  | nil =>
    cases lies
    rw [List.map_nil, List.append_nil]
    exact .refl _
  | cons value others ih =>
    have behind : Leads memory ⟨start + 2, unit, input, output ++ [value.toUInt8], taken⟩
        ⟨stop, unit, input, (output ++ [value.toUInt8]) ++ others.map UInt16.toUInt8, taken⟩ :=
      ih lies.op.2 fun other member => literal other (by simp [member])
    rw [List.append_assoc] at behind
    exact (lies.leads_emit (literal value (by simp))).trans behind

theorem Lies.leads_print {text : List UInt16}
    (lies : Lies memory spot start (.print text :: rest) stop)
    (literal : ∀ value ∈ text, value.toNat ≤ maxLiteral) :
    ∃ middle, Lies memory spot middle rest stop ∧
      Leads memory ⟨start, unit, input, output, taken⟩
        ⟨middle, unit, input, output ++ text.map UInt16.toUInt8, taken⟩ := by
  cases lies with
  | print written behind => exact ⟨_, behind, written.leads_written literal⟩

/-- The instruction that reads the next unit. -/
abbrev readNext : Directive := .op .input [World.readUnit]

/-- Where an instruction stands that reads the next unit. -/
def Reads (memory : Memory) (start : Nat) : Prop :=
  memory.Holds start [Opcode.input.word, World.readUnit.word fun _ => 0]

theorem Lies.reads (lies : Lies memory spot start (readNext :: rest) stop) : Reads memory start :=
  lies.op.1

theorem plan_readNext (state : State) :
    state.plan (.input (World.readUnit.word fun _ => 0)) = .ok (.receive 1) :=
  state.plan_receive _ 1

theorem Reads.leads {byte : UInt8} (reads : Reads memory start) :
    Leads memory ⟨start, unit, byte :: input, output, taken⟩
      ⟨start + 2, byte, input, output, taken⟩ := by
  apply Leads.one
  intro machine hosts
  have read : ∃ source, ByteSource.readVisible machine.source = (.ok (some byte), source) ∧
      source.Offers input := hosts.source.read
  obtain ⟨source, answered, offers⟩ := read
  have performed : machine.perform (start + 2) (.receive 1) =
      Machine.commit { machine with
        source
        registers := machine.registers.put 1 byte.toUInt16 } (.ofNat (start + 2)) := by
    simp only [Machine.perform, answered]
  refine ⟨_, (hosts.step reads rfl (plan_readNext _)).trans performed, ?_⟩
  refine ⟨hosts.memory, rfl, ?_, offers, hosts.output, hosts.taken⟩
  exact (Registers.get_put _ _ _ _).trans (if_pos rfl)

/-- A guest that has no input left and is about to read waits: its machine halts and still hosts
it. -/
theorem Reads.step_exhausted {machine : Adventure} (reads : Reads memory start)
    (hosts : Hosts memory machine ⟨start, unit, [], output, taken⟩) :
    ∃ next, machine.step = (next, .ok (some .inputExhausted)) ∧
      Hosts memory next ⟨start, unit, [], output, taken⟩ ∧ next.source.upcoming = [] := by
  have read : ∃ source, ByteSource.readVisible machine.source = (.ok none, source) ∧
      source.Offers [] := hosts.source.read
  obtain ⟨source, answered, offers⟩ := read
  have performed : machine.perform (start + 2) (.receive 1) =
      Machine.halt { machine with source } .inputExhausted := by
    simp only [Machine.perform, answered]
  refine ⟨_, (hosts.step reads rfl (plan_readNext _)).trans performed, ?_,
    BufferedInput.upcoming_of_exhausted answered⟩
  exact ⟨hosts.memory, hosts.counter, hosts.unit, offers, hosts.output, hosts.taken⟩

/-- Running a guest that gets to wait for input halts there, unless the budget is spent before. -/
theorem Leads.run_of_reads {machine : Adventure} {guest : Guest}
    (leads : Leads memory guest ⟨start, unit, [], output, taken⟩) (reads : Reads memory start)
    (hosts : Hosts memory machine guest) :
    ∃ enough next, Hosts memory next ⟨start, unit, [], output, taken⟩ ∧
      (∀ budget, budget < enough → (machine.run budget).value.outcome = .ok none) ∧
      ∀ budget, enough ≤ budget →
        (machine.run budget).value.outcome = .ok (some .inputExhausted) ∧
          (machine.run budget).value.machine = next := by
  obtain ⟨count, last, commits, hosted⟩ := leads machine hosts
  obtain ⟨next, halted, kept, _⟩ := reads.step_exhausted hosted
  have stopped : last.step.2 ≠ .ok none := by rw [halted]; nofun
  refine ⟨count + 1, next, kept, ?_, ?_⟩
  · intro budget less
    exact commits.run_spent (Nat.le_of_lt_succ less)
  · intro budget enough
    obtain ⟨outcome, final⟩ := commits.run_eq stopped enough
    rw [outcome, final, halted]
    exact ⟨rfl, rfl⟩

theorem Lies.step_compare {machine : Adventure} {value : Nat}
    (lies : Lies memory spot start
      (.op .eq [World.outcome, World.readUnit, .literal value] :: rest) stop)
    (literal : value ≤ maxLiteral)
    (hosts : Hosts memory machine ⟨start, unit, input, output, taken⟩) :
    ∃ next, machine.step = (next, .ok Option.none) ∧
      Hosts memory next ⟨start + 4, unit, input, output, taken⟩ ∧
      next.registers.get 2 = if unit.toNat = value then 1 else 0 := by
  have held := lies.op.1
  simp only [List.map_cons, List.map_nil, Argument.word_literal] at held
  refine ⟨_, hosts.step held rfl (State.plan_compare spot 2 1 hosts.unit literal), ?_, ?_⟩
  · refine ⟨hosts.memory, rfl, ?_, hosts.source, hosts.output, hosts.taken⟩
    exact (Registers.get_put _ _ _ _).trans hosts.unit
  · exact (Registers.get_put _ _ _ _).trans (if_pos rfl)

theorem Lies.step_branch {machine : Adventure} {target : Label} {met : Prop} [Decidable met]
    (lies : Lies memory spot start (.op .jt [World.outcome, .label target] :: rest) stop)
    (held : machine.registers.get 2 = if met then 1 else 0) (inside : spot target < memorySize)
    (hosts : Hosts memory machine ⟨start, unit, input, output, taken⟩) :
    ∃ next, machine.step = (next, .ok Option.none) ∧
      Hosts memory next ⟨if met then spot target else start + 3, unit, input, output, taken⟩ := by
  have stepped := hosts.step lies.op.1 rfl (State.plan_branch_register spot 2 held inside)
  by_cases holds : met
  · simp only [if_pos holds] at stepped ⊢
    refine ⟨_, stepped, hosts.memory, ?_, hosts.unit, hosts.source, hosts.output, hosts.taken⟩
    exact congrArg Number.ofNat (toNat_ofNat_of_inside inside)
  · simp only [if_neg holds] at stepped ⊢
    exact ⟨_, stepped, hosts.memory, rfl, hosts.unit, hosts.source, hosts.output, hosts.taken⟩

/-- A test goes to its target when the unit just read is the one it asks for. -/
theorem Lies.leads_test {value : Nat} {target : Label}
    (lies : Lies memory spot start (World.whenUnit value target ++ rest) stop)
    (literal : value ≤ maxLiteral) (inside : spot target < memorySize) :
    Leads memory ⟨start, unit, input, output, taken⟩
        ⟨if unit.toNat = value then spot target else start + 7, unit, input, output, taken⟩ ∧
      Lies memory spot (start + 7) rest stop := by
  refine ⟨?_, lies.op.2.op.2⟩
  intro machine hosts
  obtain ⟨next, compared, hosted, outcome⟩ := lies.step_compare literal hosts
  obtain ⟨last, branched, reached⟩ := lies.op.2.step_branch outcome inside hosted
  exact ⟨2, last, .step compared (.step branched (.stay last)), reached⟩

/-- A row of tests: what each asks for and where it goes. -/
abbrev Tests := List (Nat × Label)

/-- The code of a row of tests. -/
def Tests.code (tests : Tests) : List Directive :=
  tests.flatMap fun test => World.whenUnit test.1 test.2

/-- The first test that asks for the unit just read decides. -/
theorem Lies.leads_tests {tests : Tests} (lies : Lies memory spot start (tests.code ++ rest) stop)
    (literal : ∀ test ∈ tests, test.1 ≤ maxLiteral)
    (inside : ∀ test ∈ tests, spot test.2 < memorySize) :
    ∃ middle, Lies memory spot middle rest stop ∧
      Leads memory ⟨start, unit, input, output, taken⟩
        ⟨match tests.find? fun test => unit.toNat = test.1 with
          | some test => spot test.2
          | Option.none => middle, unit, input, output, taken⟩ := by
  induction tests generalizing start with
  | nil => exact ⟨start, lies, .refl _⟩
  | cons test others ih =>
    rw [Tests.code, List.flatMap_cons, List.append_assoc] at lies
    obtain ⟨leads, behind⟩ := lies.leads_test (literal test (by simp)) (inside test (by simp))
    obtain ⟨middle, rest, onward⟩ := ih behind
      (fun other member => literal other (by simp [member]))
      (fun other member => inside other (by simp [member]))
    refine ⟨middle, rest, ?_⟩
    by_cases same : unit.toNat = test.1
    · rw [if_pos same] at leads
      simp only [List.find?_cons, same, decide_true]
      exact leads
    · rw [if_neg same] at leads
      simp only [List.find?_cons, same, decide_false]
      exact leads.trans onward

/-- The guest reads on without writing anything until it waits for more input. -/
def Stalls (memory : Memory) (guest : Guest) : Prop :=
  ∃ pc unit, Reads memory pc ∧
    Leads memory guest ⟨pc, unit, [], guest.output, guest.taken⟩

theorem Leads.stalls {guest : Guest} (leads : Leads memory guest ⟨start, unit, input, guest.output,
    guest.taken⟩) (stalls : Stalls memory ⟨start, unit, input, guest.output, guest.taken⟩) :
    Stalls memory guest := by
  obtain ⟨pc, last, reads, onward⟩ := stalls
  exact ⟨pc, last, reads, leads.trans onward⟩

theorem lineFeed_eq_iff : unit.toNat = newline ↔ unit = lineFeed := by
  rw [← UInt8.toNat_inj]
  rfl

theorem Lies.labelled {name : Label} (lies : Lies memory spot start (.label name :: rest) stop) :
    spot name = start ∧ Lies memory spot start rest stop := by
  cases lies with
  | label placed behind => exact ⟨placed, behind⟩

section Drain

variable {name target : Label} (lies : Lies memory spot start (World.drainLine name target) stop)
  (inside : spot target < memorySize)

include lies inside

theorem Lies.drain_done :
    Leads memory ⟨start, lineFeed, input, output, taken⟩
      ⟨spot target, lineFeed, input, output, taken⟩ := by
  have test : Leads memory ⟨start, lineFeed, input, output, taken⟩
      ⟨if lineFeed.toNat = newline then spot target else start + 7, lineFeed, input, output,
        taken⟩ :=
    (lies.labelled.2.leads_test (by decide) inside).1
  rwa [if_pos (lineFeed_eq_iff.mpr rfl)] at test

theorem Lies.drain_next (other : unit ≠ lineFeed) :
    Reads memory (start + 7) ∧
      Leads memory ⟨start, unit, input, output, taken⟩ ⟨start + 7, unit, input, output, taken⟩ := by
  have test : Leads memory ⟨start, unit, input, output, taken⟩
        ⟨if unit.toNat = newline then spot target else start + 7, unit, input, output, taken⟩ ∧
      Lies memory spot (start + 7) [readNext, .op .jmp [.label name]] stop :=
    lies.labelled.2.leads_test (by decide) inside
  rw [if_neg (fun same => other (lineFeed_eq_iff.mp same))] at test
  exact ⟨test.2.reads, test.1⟩

theorem Lies.drain_loop {byte : UInt8} (other : unit ≠ lineFeed) :
    Leads memory ⟨start, unit, byte :: input, output, taken⟩
      ⟨start, byte, input, output, taken⟩ := by
  obtain ⟨placed, code⟩ := lies.labelled
  have jump := code.op.2.op.2.op.2
  have near : spot name < memorySize := by
    have bound := jump.op.1.inside
    simp only [List.length_cons, List.length_map, List.length_nil] at bound
    omega
  have back : Leads memory ⟨start + 7 + 2, byte, input, output, taken⟩
      ⟨spot name, byte, input, output, taken⟩ := jump.leads_jump near
  rw [placed] at back
  obtain ⟨reads, test⟩ := lies.drain_next inside other
  exact test.trans (reads.leads.trans back)

/-- The loop drops everything up to the end of the line. -/
theorem Lies.drain_line {line more : Bytes} (clean : lineFeed ∉ line)
    (stream : unit :: input = line ++ lineFeed :: more) :
    Leads memory ⟨start, unit, input, output, taken⟩
      ⟨spot target, lineFeed, more, output, taken⟩ := by
  induction line generalizing unit input with
  | nil =>
    obtain ⟨rfl, rfl⟩ := List.cons.inj stream
    exact lies.drain_done inside
  | cons byte others ih =>
    rw [List.cons_append] at stream
    obtain ⟨rfl, rfl⟩ := List.cons.inj stream
    have other : unit ≠ lineFeed := fun same => clean (by simp [same])
    cases following : others ++ lineFeed :: more with
    | nil => exact absurd following (by simp)
    | cons next rest =>
      have tail : lineFeed ∉ others := fun member => clean (by simp [member])
      exact (lies.drain_loop inside other).trans (ih tail following.symm)

theorem Lies.drain_stalls (clean : lineFeed ∉ unit :: input) :
    Stalls memory ⟨start, unit, input, output, taken⟩ := by
  have other : unit ≠ lineFeed := fun same => clean (by simp [same])
  induction input generalizing unit with
  | nil =>
    obtain ⟨reads, leads⟩ := lies.drain_next inside other
    exact ⟨_, _, reads, leads⟩
  | cons byte others ih =>
    have tail : lineFeed ∉ byte :: others := fun member => clean (List.mem_cons_of_mem _ member)
    have next : byte ≠ lineFeed := fun same => tail (by simp [same])
    exact (lies.drain_loop inside other).stalls (ih tail next)

end Drain

end Blocks

end AdventureMachine
