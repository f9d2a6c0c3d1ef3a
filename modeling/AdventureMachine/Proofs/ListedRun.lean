import AdventureMachine.Proofs.Progress
import AdventureMachine.Proofs.Sweep

/-! Listings agree with execution. The line at the program counter is data exactly when a step finds
nothing to execute there; otherwise it shows what the step executes. As long as steps neither go
elsewhere nor write to memory, the machine passes from each line of its listing to the next. -/
namespace AdventureMachine

variable {σ τ : Type}

namespace State

variable {state : State} {pc : Nat}

/-- What a step fetches is what a sweep finds at the program counter. -/
theorem fetches_iff (counter : state.pc = .ofNat pc) (opcode : Opcode) :
    state.Fetches opcode pc ↔ Listing.Starts state.memory.cells.toArray opcode pc := by
  have size : state.memory.cells.toArray.size = memorySize := state.memory.cells.size_toArray
  constructor
  · intro fetches
    have inside := fetches.inside
    exact ⟨by omega, fetches.encoded⟩
  · intro starts
    have whole := starts.whole
    exact ⟨counter, by omega, starts.encoded⟩

/-- A failed fetch inside memory found a word that is no opcode, or an operation whose operands
reach past the end. -/
theorem fetch_error (counter : state.pc = .ofNat pc) (inside : pc < memorySize) {error : Error}
    (failed : state.fetch = .error error) :
    (error = .unknownOpcode (state.memory.word pc) ∧
      ∀ opcode : Opcode, opcode.code ≠ (state.memory.word pc).toNat) ∨
    (error = .invalidAddress (.ofNat memorySize) ∧
      ∃ opcode : Opcode, opcode.code = (state.memory.word pc).toNat ∧
        memorySize ≤ pc + opcode.arity) := by
  have read := state.memory.word_eq_get ⟨pc, inside⟩
  unfold fetch at failed
  simp only [counter, Number.index?_ofNat inside, ← read] at failed
  split at failed
  · rename_i unknown
    refine .inl ⟨(Except.error.inj failed).symm, ?_⟩
    intro opcode same
    rw [← same, Opcode.ofCode?_code] at unknown
    cases unknown
  · rename_i opcode found
    split at failed
    · cases failed
    · rename_i beyond
      exact .inr ⟨(Except.error.inj failed).symm, opcode, Opcode.code_eq_of_ofCode? found,
        Nat.le_of_not_lt beyond⟩

/-- A fetch fails exactly where a sweep finds no operation. -/
theorem fetch_fails_iff (counter : state.pc = .ofNat pc) :
    (∃ error, state.fetch = .error error) ↔
      ∀ opcode, ¬ Listing.Starts state.memory.cells.toArray opcode pc := by
  constructor
  · rintro ⟨error, failed⟩ opcode starts
    rw [((fetches_iff counter opcode).mpr starts).fetch_eq] at failed
    cases failed
  · intro data
    cases fetched : state.fetch with
    | error error => exact ⟨error, rfl⟩
    | ok found =>
      obtain ⟨opcode, address, fetches, _⟩ := fetch_ok fetched
      obtain rfl : pc = address :=
        Int.ofNat.inj (Number.whole.inj (counter.symm.trans fetches.counter))
      exact absurd ((fetches_iff counter opcode).mp fetches) (data opcode)

end State

/-- The step goes elsewhere or changes memory: a jump that is taken, a call, a return or a write. -/
def Instruction.Diverts (state : State) : Instruction → Prop
  | .jump _ | .call _ | .ret | .writeMemory .. => True
  | .branch wanted a _ =>
    ∃ condition, state.registers.resolve a = .ok condition ∧ (condition != 0) = wanted
  | _ => False

/-- An action that leaves memory alone and goes on behind its instruction. -/
def Action.Straight : Action → Prop
  | .jump _ | .call _ | .ret _ | .write .. => False
  | _ => True

namespace State

variable {state : State}

theorem assignment_straight {destination word : UInt16} {action : Action}
    (assigned : state.assignment destination word = .ok action) : action.Straight := by
  obtain ⟨value, _, rest⟩ := bind_ok assigned
  obtain ⟨register, _, same⟩ := bind_ok rest
  cases same
  trivial

theorem plan_straight {instruction : Instruction} {action : Action}
    (planned : state.plan instruction = .ok action) (straight : ¬ instruction.Diverts state) :
    action.Straight := by
  cases instruction with
  | jump a => exact absurd trivial straight
  | call a => exact absurd trivial straight
  | ret => exact absurd trivial straight
  | writeMemory a b => exact absurd trivial straight
  | halt => cases planned; trivial
  | noop => cases planned; trivial
  | set a b =>
    obtain ⟨value, _, assigned⟩ := bind_ok planned
    exact assignment_straight assigned
  | invert a b =>
    obtain ⟨value, _, assigned⟩ := bind_ok planned
    exact assignment_straight assigned
  | readMemory a b =>
    obtain ⟨address, _, rest⟩ := bind_ok planned
    obtain ⟨word, _, assigned⟩ := bind_ok rest
    exact assignment_straight assigned
  | binary operation a b c =>
    obtain ⟨left, _, rest⟩ := bind_ok planned
    obtain ⟨right, _, rest⟩ := bind_ok rest
    obtain ⟨value, _, assigned⟩ := bind_ok rest
    exact assignment_straight assigned
  | push a =>
    obtain ⟨value, _, same⟩ := bind_ok planned
    cases same
    trivial
  | output a =>
    obtain ⟨value, _, same⟩ := bind_ok planned
    cases same
    trivial
  | input a =>
    obtain ⟨register, _, same⟩ := bind_ok planned
    cases same
    trivial
  | pop a =>
    obtain ⟨register, _, rest⟩ := bind_ok planned
    split at rest
    · cases rest
    · split at rest <;> cases rest <;> trivial
  | branch wanted a b =>
    obtain ⟨condition, resolved, rest⟩ := bind_ok planned
    split at rest
    · rename_i taken
      exact absurd ⟨condition, resolved, taken⟩ straight
    · cases rest
      trivial

end State

namespace Machine

variable [ByteSource σ] [ByteSink τ]

/-- A committed straight action leaves memory alone and goes on behind its instruction. -/
theorem perform_straight {machine : Machine σ τ} {next : Nat} {action : Action}
    (straight : action.Straight) (committed : (machine.perform next action).2 = .ok none) :
    (machine.perform next action).1.memory = machine.memory ∧
      (machine.perform next action).1.pc = .ofNat next := by
  cases action with
  | advance => exact ⟨rfl, rfl⟩
  | assign register value => exact ⟨rfl, rfl⟩
  | push value => exact ⟨rfl, rfl⟩
  | pop register value => exact ⟨rfl, rfl⟩
  | drop error => cases committed
  | stop reason => cases committed
  | write address value => exact absurd straight id
  | jump target => exact absurd straight id
  | call target => exact absurd straight id
  | ret target => exact absurd straight id
  | emit byte =>
    rcases answered : ByteSink.writeByte machine.sink byte with ⟨_ | _, rest⟩
    · simp only [perform, answered] at committed
      cases committed
    · simp only [perform, answered]
      exact ⟨rfl, rfl⟩
  | receive register =>
    rcases answered : ByteSource.readVisible machine.source with ⟨_ | _ | byte, rest⟩
    · simp only [perform, answered] at committed
      cases committed
    · simp only [perform, answered, halt] at committed
      cases committed
    · simp only [perform, answered]
      exact ⟨rfl, rfl⟩

/-- The machine commits a step that neither goes elsewhere nor changes memory. -/
def Strides (machine : Machine σ τ) : Prop :=
  machine.step.2 = .ok none ∧ ∀ instruction next, machine.toState.fetch = .ok (instruction, next) →
    ¬ instruction.Diverts machine.toState

/-- The words of memory as they are listed. -/
abbrev words (machine : Machine σ τ) : Array UInt16 := machine.memory.cells.toArray

/-- Such a step passes from one line of the listing to the next. -/
theorem Strides.step {machine : Machine σ τ} (strides : machine.Strides) :
    ∃ pc, machine.pc = .ofNat pc ∧ pc < machine.words.size ∧
      machine.step.1.memory = machine.memory ∧
      machine.step.1.pc = .ofNat (pc + (Listing.line machine.words (.ofNat pc)).length) := by
  obtain ⟨committed, straight⟩ := strides
  rcases machine.step_cases with ⟨error, same, _⟩ | ⟨instruction, next, action, fetched, planned, same⟩
  · rw [same] at committed
    cases committed
  · obtain ⟨opcode, pc, fetches, _, rfl⟩ := State.fetch_ok fetched
    rw [same] at committed ⊢
    obtain ⟨memory, counter⟩ := perform_straight
      (State.plan_straight planned (straight _ _ fetched)) committed
    have starts := (State.fetches_iff fetches.counter opcode).mp fetches
    have whole : pc + 1 + opcode.arity ≤ machine.words.size := starts.whole
    refine ⟨pc, fetches.counter, by omega, memory, ?_⟩
    rw [counter, Listing.line_of_starts starts, Listing.operationLine, Nat.add_assoc]

/-- Steps that stride pass through the lines of the listing one after another. -/
theorem counters_of_strides {machine : Machine σ τ} {count : Nat}
    (strides : ∀ index < count, (machine.after index).Strides) :
    (List.range count).map (fun index => (machine.after index).pc) =
      (Listing.lines machine.words machine.pc count).map Listing.Line.address := by
  induction count generalizing machine with
  | zero => rfl
  | succ count ih =>
    have first : machine.Strides := strides 0 (Nat.succ_pos _)
    obtain ⟨pc, counter, inside, memory, next⟩ := first.step
    have later : ∀ index < count, (machine.step.1.after index).Strides := fun index less =>
      strides (index + 1) (Nat.succ_lt_succ less)
    have rest := ih later
    rw [words, memory, next] at rest
    rw [List.range_succ_eq_map, List.map_cons, List.map_map, counter, Listing.lines_of_lt inside,
      List.map_cons, Listing.line_address, ← rest]
    exact congrArg (· :: _) counter

/-- Executes a fetched instruction; `next` is the address behind it. -/
def execute (machine : Machine σ τ) (instruction : Instruction) (next : Nat) :
    Machine σ τ × Outcome :=
  match machine.toState.plan instruction with
  | .error error => (machine, .error error)
  | .ok action => machine.perform next action

theorem step_of_fetch {machine : Machine σ τ} {instruction : Instruction} {next : Nat}
    (fetched : machine.toState.fetch = .ok (instruction, next)) :
    machine.step = machine.execute instruction next := by
  cases planned : machine.toState.plan instruction with
  | error error => rw [step_of_plan_error fetched planned, execute, planned]
  | ok action => rw [step_of_plan fetched planned, execute, planned]

/-- What the line at the program counter tells of the next step. -/
structure Foretells (machine : Machine σ τ) (pc : Nat) (line : Listing.Line) : Prop where
  /-- Data is shown exactly where the fetch fails. -/
  data : (∃ word, line.text = Listing.dataText word) ↔ ∃ error, machine.toState.fetch = .error error
  /-- Then the step fails for the word shown, or for operands past the end of memory. -/
  fault : ∀ error, machine.toState.fetch = .error error → machine.step = (machine, .error error) ∧
    ((error = .unknownOpcode (machine.memory.word pc) ∧
      ∀ opcode : Opcode, opcode.code ≠ (machine.memory.word pc).toNat) ∨
    (error = .invalidAddress (.ofNat memorySize) ∧
      ∃ opcode : Opcode, opcode.code = (machine.memory.word pc).toNat ∧
        memorySize ≤ pc + opcode.arity))
  /-- Otherwise the line shows the opcode and the raw operands of what the step executes. -/
  operation : ∀ instruction next, machine.toState.fetch = .ok (instruction, next) →
    machine.step = machine.execute instruction next ∧
    instruction.opcode.code = (machine.memory.word pc).toNat ∧
    instruction.operands = (List.range instruction.opcode.arity).map
      (fun position => machine.memory.word (pc + 1 + position)) ∧
    line = ⟨.ofNat pc, instruction.opcode.listed (instruction.operands.map UInt16.toNat),
      1 + instruction.operands.length⟩ ∧ next = pc + line.length

theorem foretells_line {machine : Machine σ τ} {pc : Nat} (counter : machine.pc = .ofNat pc)
    (inside : pc < memorySize) :
    machine.Foretells pc (Listing.line machine.words (.ofNat pc)) := by
  have bound : pc < machine.words.size := by
    rw [Vector.size_toArray]
    exact inside
  constructor
  · rw [State.fetch_fails_iff counter]
    rcases Listing.line_cases bound with ⟨opcode, starts, shown⟩ | ⟨data, shown⟩
    · rw [shown]
      exact ⟨fun ⟨word, same⟩ => absurd same.symm (Listing.dataText_ne_listed _ _ _),
        fun data => absurd starts (data opcode)⟩
    · rw [shown]
      exact ⟨fun _ => data, fun _ => ⟨_, rfl⟩⟩
  · intro error failed
    exact ⟨step_of_fetch_error failed, State.fetch_error counter inside failed⟩
  · intro instruction next fetched
    obtain ⟨opcode, address, fetches, decoded, rfl⟩ := State.fetch_ok fetched
    obtain rfl : pc = address :=
      Int.ofNat.inj (Number.whole.inj (counter.symm.trans fetches.counter))
    have starts := (State.fetches_iff counter opcode).mp fetches
    have code : instruction.opcode = opcode := by rw [decoded, Instruction.opcode_decode]
    have operands : instruction.operands = Listing.operandsAt machine.words opcode pc := by
      rw [decoded, Instruction.operands_decode]
      rfl
    have length : instruction.operands.length = opcode.arity := by
      rw [operands, Listing.operandsAt, List.length_map, List.length_range]
    have shown := Listing.line_of_starts starts
    refine ⟨step_of_fetch fetched, ?_, ?_, ?_, ?_⟩
    · rw [code]
      exact fetches.encoded.symm
    · rw [code]
      exact operands
    · rw [shown, length, code, operands]
      rfl
    · rw [shown, Listing.operationLine, Nat.add_assoc]

end Machine

/-- A listing of memory agrees with execution. At every address the line is data exactly when a step
fails at its fetch there, and otherwise shows the opcode and the raw operands of what the step
executes. As long as committed steps take no jump, call or return and write no memory, the machine
passes through the lines of its listing one after another. -/
theorem Machine.listing_follows_execution [ByteSource σ] [ByteSink τ] (machine : Machine σ τ) :
    (∀ pc, machine.pc = .ofNat pc → pc < memorySize →
      machine.Foretells pc (Listing.line machine.words machine.pc)) ∧
    (∀ count, (∀ index < count, (machine.after index).Strides) →
      (List.range count).map (fun index => (machine.after index).pc) =
        (Listing.lines machine.words machine.pc count).map Listing.Line.address) := by
  constructor
  · intro pc counter inside
    rw [counter]
    exact foretells_line counter inside
  · intro count strides
    exact counters_of_strides strides

/-- The words of `noop`, `push 5` and `set r0 7` in the first cells. -/
def Memory.threeLengths : Memory :=
  (((((Memory.zero.put 0 21).put 1 2).put 2 5).put 3 1).put 4 32768).put 5 7

theorem Memory.word_threeLengths :
    threeLengths.word 0 = 21 ∧ threeLengths.word 1 = 2 ∧ threeLengths.word 2 = 5 ∧
      threeLengths.word 3 = 1 ∧ threeLengths.word 4 = 32768 ∧ threeLengths.word 5 = 7 := by
  simp only [threeLengths, word_put]
  exact ⟨rfl, rfl, rfl, rfl, rfl, rfl⟩

theorem State.fetch_threeLengths (registers : Registers) (stack : List Number) :
    fetch ⟨.threeLengths, registers, stack, .ofNat 0⟩ = .ok (.noop, 1) ∧
      fetch ⟨.threeLengths, registers, stack, .ofNat 1⟩ = .ok (.push 5, 3) ∧
      fetch ⟨.threeLengths, registers, stack, .ofNat 3⟩ = .ok (.set 32768 7, 6) := by
  obtain ⟨first, second, five, third, register, seven⟩ := Memory.word_threeLengths
  have noop : Fetches ⟨.threeLengths, registers, stack, .ofNat 0⟩ .noop 0 :=
    ⟨rfl, by decide, by rw [first]; rfl⟩
  have push : Fetches ⟨.threeLengths, registers, stack, .ofNat 1⟩ .push 1 :=
    ⟨rfl, by decide, by rw [second]; rfl⟩
  have set : Fetches ⟨.threeLengths, registers, stack, .ofNat 3⟩ .set 3 :=
    ⟨rfl, by decide, by rw [third]; rfl⟩
  refine ⟨noop.fetch_eq, ?_, ?_⟩
  · rw [push.fetch_eq, Instruction.decode, five]
    rfl
  · rw [set.fetch_eq, Instruction.decode, register, seven]
    rfl

/-- The three instructions under way, on transports that hold nothing. -/
def Machine.threeLengths (registers : Registers) (stack : List Number) (pc steps : Nat) :
    Machine BufferedInput BufferedOutput where
  memory := .threeLengths
  registers
  stack
  pc := .ofNat pc
  source := .empty
  sink := .empty
  steps
  lastHalt := none
  tracing := false

theorem Machine.step_threeLengths (registers : Registers) (stack : List Number) (steps : Nat) :
    (threeLengths registers stack 0 steps).step =
        (threeLengths registers stack 1 (steps + 1), .ok none) ∧
      (threeLengths registers stack 1 steps).step =
        (threeLengths registers (5 :: stack) 3 (steps + 1), .ok none) ∧
      (threeLengths registers stack 3 steps).step =
        (threeLengths (registers.put 0 7) stack 6 (steps + 1), .ok none) := by
  obtain ⟨first, second, third⟩ := State.fetch_threeLengths registers stack
  have pushed : State.plan ⟨.threeLengths, registers, stack, .ofNat 1⟩ (.push 5) =
      .ok (.push (.ofWord 5)) := rfl
  have assigned : State.plan ⟨.threeLengths, registers, stack, .ofNat 3⟩ (.set 32768 7) =
      .ok (.assign 0 7) := rfl
  refine ⟨?_, ?_, ?_⟩
  · rw [threeLengths, step_of_plan first rfl]
    rfl
  · rw [threeLengths, step_of_plan second pushed]
    rfl
  · rw [threeLengths, step_of_plan third assigned]
    rfl

/-- The three instructions before the first of them. -/
def Machine.beforeThree : Machine BufferedInput BufferedOutput := threeLengths .zero [] 0 0

theorem Machine.after_threeLengths :
    beforeThree.after 1 = threeLengths .zero [] 1 1 ∧
      beforeThree.after 2 = threeLengths .zero [.ofWord 5] 3 2 := by
  obtain ⟨first, _, _⟩ := step_threeLengths .zero [] 0
  obtain ⟨_, second, _⟩ := step_threeLengths .zero [] 1
  have one : beforeThree.after 1 = threeLengths .zero [] 1 1 := congrArg Prod.fst first
  refine ⟨one, ?_⟩
  rw [← after_add beforeThree 1 1, one]
  exact congrArg Prod.fst second

theorem Machine.strides_threeLengths : ∀ index < 3, (beforeThree.after index).Strides := by
  have strides {machine last : Machine BufferedInput BufferedOutput} {instruction : Instruction}
      {next : Nat} (fetched : machine.toState.fetch = .ok (instruction, next))
      (stepped : machine.step = (last, .ok none)) (straight : ¬ instruction.Diverts machine.toState) :
      machine.Strides := by
    refine ⟨by rw [stepped], fun other next fetched' => ?_⟩
    obtain ⟨rfl, rfl⟩ := Prod.mk.inj (Except.ok.inj (fetched.symm.trans fetched'))
    exact straight
  intro index less
  rcases index with _ | _ | _ | index
  · exact strides (State.fetch_threeLengths .zero []).1 (step_threeLengths .zero [] 0).1 id
  · rw [after_threeLengths.1]
    exact strides (State.fetch_threeLengths .zero []).2.1 (step_threeLengths .zero [] 1).2.1 id
  · rw [after_threeLengths.2]
    exact strides (State.fetch_threeLengths .zero [.ofWord 5]).2.2
      (step_threeLengths .zero [.ofWord 5] 2).2.2 id
  · omega

/-- The machine passes lines of one, two and three words. -/
theorem Machine.listing_follows_execution_threeLengths :
    beforeThree.pc = .ofNat 0 ∧ 0 < memorySize ∧
      (∀ index < 3, (beforeThree.after index).Strides) ∧
      Listing.line beforeThree.words beforeThree.pc = ⟨.ofNat 0, "noop", 1⟩ ∧
      (Listing.lines beforeThree.words beforeThree.pc 3).map Listing.Line.address =
        [.ofNat 0, .ofNat 1, .ofNat 3] := by
  obtain ⟨foretells, follows⟩ := listing_follows_execution beforeThree
  obtain ⟨_, _, _, shown, _⟩ := (foretells 0 rfl (by decide)).operation .noop 1
    (State.fetch_threeLengths .zero []).1
  refine ⟨rfl, by decide, strides_threeLengths, shown, ?_⟩
  have three : List.range 3 = [0, 1, 2] := rfl
  rw [← follows 3 strides_threeLengths, three, List.map_cons, List.map_cons, List.map_singleton,
    after_threeLengths.1, after_threeLengths.2]
  rfl

end AdventureMachine
