import AdventureMachine.Proofs.InstructionTable
import AdventureMachine.Proofs.Reachability

/-! The machine carries out the instruction table. Each family of operations has two lemmas: what
the table asks for makes the checks pass and has the effect of the table, and checks that pass are
what the table asks for. -/
namespace AdventureMachine

variable {σ τ : Type}

namespace State

theorem fetch_opcode {state : State} {instruction : Instruction} {next : Nat}
    (fetched : state.fetch = .ok (instruction, next)) :
    ∃ address, state.Fetches instruction.opcode address ∧
      instruction = .decode instruction.opcode fun position =>
        state.memory.word (address + 1 + position) := by
  obtain ⟨opcode, address, fetches, decoded, _⟩ := fetch_ok fetched
  have same : instruction.opcode = opcode := by rw [decoded, Instruction.opcode_decode]
  exact ⟨address, same ▸ fetches, same ▸ decoded⟩

/-- A valid word is stored as what it denotes. -/
theorem assignment_of_le (state : State) {destination word : UInt16}
    (named : firstRegister ≤ destination.toNat ∧ destination.toNat ≤ lastOperand)
    (valid : word.toNat ≤ lastOperand) :
    ∃ value, value.toNat = state.registers.denoted word.toNat ∧
      state.assignment destination word =
        .ok (.assign (Operand.registerAt destination.toNat) value) := by
  obtain ⟨value, resolved, same⟩ := state.registers.resolve_of_le valid
  refine ⟨value, same, ?_⟩
  simp only [assignment, resolved, Operand.wordDestination_of_le named.1 named.2]
  rfl

/-- A literal is stored as it is. -/
theorem assignment_of_literal (state : State) {destination word : UInt16}
    (named : firstRegister ≤ destination.toNat ∧ destination.toNat ≤ lastOperand)
    (bound : word.toNat ≤ maxLiteral) :
    state.assignment destination word =
      .ok (.assign (Operand.registerAt destination.toNat) word) := by
  simp only [assignment, state.registers.resolve_literal bound,
    Operand.wordDestination_of_le named.1 named.2]
  rfl

section

variable {state : State} {a b c : UInt16} (literal : state.registers.Literal)
  (named : firstRegister ≤ a.toNat ∧ a.toNat ≤ lastOperand)

include literal named

theorem plan_set (right : b.toNat ≤ lastOperand) :
    ∃ value, value.toNat = state.registers.denoted b.toNat ∧ state.plan (.set a b) =
      .ok (.assign (Operand.registerAt a.toNat) value) := by
  obtain ⟨value, resolved, same⟩ := state.registers.resolve_of_le right
  have bound : value.toNat ≤ maxLiteral := same ▸ Registers.denoted_le literal _
  have assigned := state.assignment_of_literal named bound
  exact ⟨value, same, by simp only [plan, resolved, bind, Except.bind, assigned]⟩

theorem plan_invert (right : b.toNat ≤ lastOperand) :
    ∃ value, value.toNat = maxLiteral - state.registers.denoted b.toNat ∧
      state.plan (.invert a b) =
        .ok (.assign (Operand.registerAt a.toNat) value) := by
  obtain ⟨word, resolved, same⟩ := state.registers.resolve_of_le right
  have bound : word.toNat ≤ maxLiteral := same ▸ Registers.denoted_le literal _
  have inverse := toNat_inverse bound
  have assigned := state.assignment_of_literal named (inverse ▸ Nat.sub_le _ _)
  exact ⟨_, inverse.trans (by rw [same]),
    by simp only [plan, resolved, bind, Except.bind, assigned]⟩

theorem plan_binary (operation : Binary) (left : b.toNat ≤ lastOperand)
    (right : c.toNat ≤ lastOperand)
    (divisible : operation = .mod → state.registers.denoted c.toNat ≠ 0) :
    ∃ value, value.toNat =
        operation.result (state.registers.denoted b.toNat) (state.registers.denoted c.toNat) ∧
      state.plan (.binary operation a b c) =
        .ok (.assign (Operand.registerAt a.toNat) value) := by
  obtain ⟨first, firstRead, firstSame⟩ := state.registers.resolve_of_le left
  obtain ⟨second, secondRead, secondSame⟩ := state.registers.resolve_of_le right
  rw [← firstSame, ← secondSame]
  rw [← secondSame] at divisible
  obtain ⟨value, computed, result⟩ := operation.apply_of_ne_zero first second divisible
  have firstBound : first.toNat ≤ maxLiteral := firstSame ▸ Registers.denoted_le literal _
  have secondBound : second.toNat ≤ maxLiteral := secondSame ▸ Registers.denoted_le literal _
  have bound : value.toNat ≤ maxLiteral := result ▸ operation.result_le firstBound secondBound
  have assigned := state.assignment_of_literal named bound
  exact ⟨value, result,
    by simp only [plan, firstRead, secondRead, computed, bind, Except.bind, assigned]⟩

/-- The word in a cell is read as an operand once more before it is stored. -/
theorem plan_readMemory (right : b.toNat ≤ lastOperand)
    (held : (state.memory.word (state.registers.denoted b.toNat)).toNat ≤ lastOperand) :
    ∃ value, value.toNat = state.registers.denoted
        (state.memory.word (state.registers.denoted b.toNat)).toNat ∧
      state.plan (.readMemory a b) =
        .ok (.assign (Operand.registerAt a.toNat) value) := by
  obtain ⟨address, resolved, same⟩ := state.registers.resolve_of_le right
  have bound : address.toNat ≤ maxLiteral := same ▸ Registers.denoted_le literal _
  obtain ⟨index, found, position⟩ := Number.index?_ofWord bound
  have read : state.memory.read (.ofWord address) =
      .ok (state.memory.word (state.registers.denoted b.toNat)) := by
    rw [Memory.read, found, ← same, ← position, Memory.word_eq_get]
  obtain ⟨value, denotes, assigned⟩ := state.assignment_of_le named held
  exact ⟨value, denotes, by simp only [plan, resolved, read, bind, Except.bind, assigned]⟩

end

/-- Storing succeeds only for a valid word and a register. -/
theorem assignment_ok {state : State} {destination word : UInt16} {action : Action}
    (assigned : state.assignment destination word = .ok action) :
    word.toNat ≤ lastOperand ∧ firstRegister ≤ destination.toNat ∧
      destination.toNat ≤ lastOperand := by
  obtain ⟨value, resolved, rest⟩ := bind_ok assigned
  obtain ⟨register, named, _⟩ := bind_ok rest
  exact ⟨(Registers.resolve_ok resolved).1, (Operand.wordDestination_ok named).1⟩

/-- A jump under a condition that holds is a jump; else nothing is left to check. -/
theorem plan_branch {state : State} {wanted : Bool} {a b condition : UInt16}
    (resolved : state.registers.resolve a = .ok condition) :
    state.plan (.branch wanted a b) =
      if (condition != 0) = wanted then state.plan (.jump b) else .ok .advance := by
  simp only [plan, resolved]
  rfl

end State

namespace Machine

/-- The machine read as exact integers. -/
def exact (machine : Machine σ τ) : Exact σ τ where
  memory address := (machine.memory.word address).toNat
  registers index := (machine.registers.get index).toNat
  stack := machine.stack
  pc := machine.pc
  source := machine.source
  sink := machine.sink
  steps := machine.steps
  lastHalt := machine.lastHalt
  tracing := machine.tracing

theorem exact_operand (machine : Machine σ τ) (address position : Nat) :
    machine.exact.operand address position =
      (machine.memory.word (address + 1 + position)).toNat := rfl

theorem exact_at_iff (machine : Machine σ τ) (opcode : Opcode) (address : Nat) :
    machine.exact.At opcode address ↔ machine.toState.Fetches opcode address :=
  ⟨fun here => ⟨here.counter, here.inside, here.encoded⟩,
    fun fetches => ⟨fetches.counter, fetches.inside, fetches.encoded⟩⟩

/-- The register that the operation at an address names as its destination. -/
def target (machine : Machine σ τ) (address : Nat) : Fin registerCount :=
  Operand.registerAt (machine.memory.word (address + 1 + 0)).toNat

theorem exact_put_register (machine : Machine σ τ) (address : Nat) (value : UInt16) :
    exact { machine with registers := machine.registers.put (machine.target address) value } =
      machine.exact.store address value.toNat := by
  have changed : (fun index =>
      ((machine.registers.put (machine.target address) value).get index).toNat) =
      fun index => if machine.target address = index then value.toNat
        else (machine.registers.get index).toNat := by
    funext index
    rw [Registers.get_put, apply_ite UInt16.toNat]
  exact congrArg (fun registers => { machine.exact with registers }) changed

theorem exact_put_cell (machine : Machine σ τ) (index : Fin memorySize) (value : UInt16) :
    exact { machine with memory := machine.memory.put index value } =
      machine.exact.write index.val value.toNat := by
  simp only [exact, Exact.write, Memory.word_put, apply_ite UInt16.toNat]

/-- The instruction at an address, with its operands. -/
abbrev instructionAt (machine : Machine σ τ) (opcode : Opcode) (address : Nat) : Instruction :=
  .decode opcode fun position => machine.memory.word (address + 1 + position)

theorem instructionAt_binary (machine : Machine σ τ) (operation : Binary) (address : Nat) :
    machine.instructionAt operation.opcode address =
      .binary operation (machine.memory.word (address + 1 + 0))
        (machine.memory.word (address + 1 + 1)) (machine.memory.word (address + 1 + 2)) := by
  cases operation <;> rfl

/-- An `in` with a destination asks its source for a byte. -/
theorem plan_input {machine : Machine σ τ} {address : Nat} (named : machine.exact.Names address) :
    machine.toState.plan (machine.instructionAt .input address) =
      .ok (.receive (machine.target address)) := by
  simp only [instructionAt, Instruction.decode, State.plan,
    Operand.wordDestination_of_le named.1 named.2]
  rfl

/-- A condition as the machine tests it. -/
theorem branch_taken {machine : Machine σ τ} {address : Nat} {word : UInt16} (wanted : Bool)
    (same : machine.exact.value address 0 = word.toNat) :
    (word != 0) = wanted ↔ (machine.exact.value address 0 ≠ 0 ↔ wanted = true) := by
  have zero : word = 0 ↔ word.toNat = 0 := UInt16.toNat_inj.symm
  rw [same, ne_eq, ← zero]
  cases wanted <;> simp

/-- A conditional jump checks its condition, and its target when it is taken. -/
theorem branch_readable {machine : Machine σ τ} {opcode : Opcode} {address : Nat} {action : Action}
    (wanted : Bool)
    (decoded : machine.instructionAt opcode address = .branch wanted
      (machine.memory.word (address + 1 + 0)) (machine.memory.word (address + 1 + 1)))
    (planned : machine.toState.plan (machine.instructionAt opcode address) = .ok action) :
    machine.exact.operand address 0 ≤ lastOperand ∧
      ((machine.exact.value address 0 ≠ 0 ↔ wanted = true) →
        machine.exact.operand address 1 ≤ lastOperand) := by
  rw [decoded] at planned
  obtain ⟨word, read, planned⟩ := bind_ok planned
  obtain ⟨valid, same⟩ := Registers.resolve_ok read
  refine ⟨valid, ?_⟩
  intro taken
  rw [if_pos ((branch_taken wanted same.symm).mpr taken)] at planned
  exact Registers.resolve_bind_ok planned

variable [ByteSource σ] [ByteSink τ]

theorem step_at {machine : Machine σ τ} {opcode : Opcode} {address : Nat} {action : Action}
    (here : machine.exact.At opcode address)
    (planned : machine.toState.plan (machine.instructionAt opcode address) = .ok action) :
    machine.step = machine.perform (address + 1 + opcode.arity) action :=
  step_of_plan ((machine.exact_at_iff opcode address).mp here).fetch_eq planned

/-- The step commits, with the effect that the table gives. -/
def Executes (machine : Machine σ τ) (opcode : Opcode) (address : Nat) : Prop :=
  machine.step.2 = .ok none ∧ machine.exact.Effect opcode address machine.step.1.exact

theorem executes_of_plan {machine : Machine σ τ} {opcode : Opcode} {address : Nat}
    (here : machine.exact.At opcode address) (action : Action)
    (planned : machine.toState.plan (machine.instructionAt opcode address) = .ok action)
    (committed : (machine.perform (address + 1 + opcode.arity) action).2 = .ok none)
    (effect : machine.exact.Effect opcode address
      (machine.perform (address + 1 + opcode.arity) action).1.exact) :
    machine.Executes opcode address := by
  rw [Executes, step_at here planned]
  exact ⟨committed, effect⟩

/-- A planned assignment stores its value and goes on to the next instruction. -/
theorem step_of_assign {machine : Machine σ τ} {opcode : Opcode} {address result : Nat}
    {value : UInt16} (here : machine.exact.At opcode address)
    (planned : machine.toState.plan (machine.instructionAt opcode address) =
      .ok (.assign (machine.target address) value)) (same : value.toNat = result) :
    machine.step.2 = .ok none ∧ machine.step.1.exact =
      (machine.exact.store address result).moveTo (.ofNat (address + 1 + opcode.arity)) := by
  rw [step_at here planned, ← same, ← exact_put_register]
  exact ⟨rfl, rfl⟩

/-- The seven operations that compute a word from two others. -/
theorem step_of_binary {machine : Machine σ τ} (operation : Binary) {address : Nat}
    (literal : machine.registers.Literal)
    (commits : machine.exact.Commits operation.opcode address) :
    machine.step.2 = .ok none ∧ machine.step.1.exact =
      (machine.exact.store address
        (operation.result (machine.exact.value address 1) (machine.exact.value address 2))).moveTo
        (.ofNat (address + 1 + operation.opcode.arity)) := by
  have sources := machine.exact.sources_binary operation address
  have decoded := machine.instructionAt_binary operation address
  have named := commits.writable (by cases operation <;> rfl)
  have left := commits.readable 1 (by simp [sources])
  have right := commits.readable 2 (by simp [sources])
  have divisible : operation = .mod → machine.exact.value address 2 ≠ 0 := by
    rintro rfl
    exact commits.permitted
  obtain ⟨value, same, planned⟩ := State.plan_binary literal named operation left right divisible
  exact step_of_assign commits.toAt (decoded ▸ planned) same

/-- A source operand that is valid resolves to the integer it denotes. -/
theorem resolve_source {machine : Machine σ τ} {opcode : Opcode} {address : Nat}
    (commits : machine.exact.Commits opcode address) (position : Nat)
    (used : position ∈ machine.exact.sources opcode address) :
    ∃ word, machine.registers.resolve (machine.memory.word (address + 1 + position)) = .ok word ∧
      machine.exact.value address position = word.toNat := by
  obtain ⟨word, resolved, same⟩ := machine.registers.resolve_of_le (commits.readable position used)
  exact ⟨word, resolved, same.symm⟩

/-- The operations that act on the value of their first operand. -/
theorem executes_of_source {machine : Machine σ τ} {opcode : Opcode} {address : Nat}
    (commits : machine.exact.Commits opcode address)
    (used : 0 ∈ machine.exact.sources opcode address) (act : UInt16 → Action)
    (shape : machine.toState.plan (machine.instructionAt opcode address) =
      machine.registers.resolve (machine.memory.word (address + 1 + 0)) >>= fun word =>
        .ok (act word))
    (effect : ∀ word, machine.exact.value address 0 = word.toNat →
      (machine.perform (address + 1 + opcode.arity) (act word)).2 = .ok none ∧
        machine.exact.Effect opcode address
          (machine.perform (address + 1 + opcode.arity) (act word)).1.exact) :
    machine.Executes opcode address := by
  obtain ⟨word, resolved, same⟩ := resolve_source commits 0 used
  have planned : machine.toState.plan (machine.instructionAt opcode address) = .ok (act word) := by
    rw [shape, resolved]
    rfl
  obtain ⟨committed, effect⟩ := effect word same
  exact executes_of_plan commits.toAt (act word) planned committed effect

/-- Both conditional jumps. The target counts when the jump is taken. -/
theorem step_of_branch {machine : Machine σ τ} {opcode : Opcode} {address : Nat} (wanted : Bool)
    (commits : machine.exact.Commits opcode address)
    (decoded : machine.instructionAt opcode address = .branch wanted
      (machine.memory.word (address + 1 + 0)) (machine.memory.word (address + 1 + 1)))
    (condition : 0 ∈ machine.exact.sources opcode address)
    (target : (machine.exact.value address 0 ≠ 0 ↔ wanted = true) →
      1 ∈ machine.exact.sources opcode address) :
    machine.step.2 = .ok none ∧ machine.step.1.exact = machine.exact.moveTo (.ofNat
      (if machine.exact.value address 0 ≠ 0 ↔ wanted = true then machine.exact.value address 1
        else address + 1 + opcode.arity)) := by
  obtain ⟨word, resolved, same⟩ := resolve_source commits 0 condition
  have truth := branch_taken wanted same
  by_cases taken : machine.exact.value address 0 ≠ 0 ↔ wanted = true
  · obtain ⟨destination, read, denotes⟩ := resolve_source commits 1 (target taken)
    have planned : machine.toState.plan (machine.instructionAt opcode address) =
        .ok (.jump destination) := by
      rw [decoded, State.plan_branch resolved, if_pos (truth.mpr taken)]
      simp only [State.plan, read]
      rfl
    rw [step_at commits.toAt planned, if_pos taken, denotes]
    exact ⟨rfl, rfl⟩
  · have planned : machine.toState.plan (machine.instructionAt opcode address) = .ok .advance := by
      rw [decoded, State.plan_branch resolved, if_neg (mt truth.mp taken)]
    rw [step_at commits.toAt planned, if_neg taken]
    exact ⟨rfl, rfl⟩

theorem executes_wmem {machine : Machine σ τ} {address : Nat} (literal : machine.registers.Literal)
    (commits : machine.exact.Commits .wmem address) : machine.Executes .wmem address := by
  obtain ⟨target, targetRead, targetSame⟩ := resolve_source commits 0 (by simp [Exact.sources])
  obtain ⟨word, wordRead, wordSame⟩ := resolve_source commits 1 (by simp [Exact.sources])
  have bound : target.toNat ≤ maxLiteral := targetSame ▸ Registers.denoted_le literal _
  obtain ⟨index, found, position⟩ := Number.index?_ofWord bound
  refine executes_of_plan commits.toAt (.write index word) ?_ rfl ?_
  · simp only [instructionAt, Instruction.decode, State.plan, targetRead, wordRead, bind,
      Except.bind, found]
    rfl
  · simp only [Exact.Effect, targetSame, wordSame, ← position, ← exact_put_cell]
    rfl

theorem executes_ret {machine : Machine σ τ} {address : Nat}
    (here : machine.exact.At .ret address) (occupied : machine.stack ≠ []) :
    machine.Executes .ret address := by
  obtain ⟨top, rest, held⟩ := List.exists_cons_of_ne_nil occupied
  refine executes_of_plan here (.ret top) ?_ rfl ⟨top, rest, held, ?_⟩
  · simp only [instructionAt, Instruction.decode, State.plan, held]
  · simp only [perform, held, List.tail_cons]
    rfl

/-- A literal on top of the stack is popped as it is. -/
theorem executes_pop {machine : Machine σ τ} {address : Nat}
    (entries : ∀ entry ∈ machine.stack, entry.UpTo maxLiteral)
    (commits : machine.exact.Commits .pop address) : machine.Executes .pop address := by
  obtain ⟨entry, rest, held⟩ := List.exists_cons_of_ne_nil commits.permitted
  have stacked : machine.stack = entry :: rest := held
  obtain ⟨top, rfl, bound⟩ := entries entry (by rw [stacked]; exact List.mem_cons_self)
  have limits := word_limits
  have kept : (Number.ofNat top).toWord.toNat = top := Number.toNat_toWord (by omega)
  have loaded := machine.registers.load_literal bound
  have named := commits.writable rfl
  refine executes_of_plan commits.toAt (.pop (machine.target address) (Number.ofNat top).toWord) ?_
    rfl ⟨top, rest, stacked, ?_⟩
  · simp only [instructionAt, Instruction.decode, State.plan, bind, Except.bind, stacked, loaded,
      Operand.wordDestination_of_le named.1 named.2]
    rfl
  · have changed := exact_put_register { machine with stack := rest } address
      (Number.ofNat top).toWord
    rw [kept] at changed
    simp only [perform, stacked, List.tail_cons]
    exact congrArg (Exact.moveTo · _) changed

theorem executes_output {machine : Machine σ τ} {address : Nat}
    (commits : machine.exact.Commits .output address) : machine.Executes .output address := by
  refine executes_of_source commits (by simp [Exact.sources]) (fun word => .emit word.toUInt8)
    rfl ?_
  intro word same
  have low : UInt8.ofNat (machine.exact.value address 0) = word.toUInt8 := by
    rw [same, UInt8.ofNat_uInt16ToNat]
  have accepted : (ByteSink.writeByte machine.sink word.toUInt8).1 = .ok () :=
    low ▸ commits.permitted
  rcases answered : ByteSink.writeByte machine.sink word.toUInt8 with ⟨answer, sink⟩
  rw [answered] at accepted
  obtain rfl : answer = .ok () := accepted
  have written : (ByteSink.writeByte machine.exact.sink word.toUInt8).2 = sink :=
    congrArg Prod.snd answered
  simp only [Exact.Effect, perform, answered, low, written]
  exact ⟨rfl, rfl⟩

theorem executes_input {machine : Machine σ τ} {address : Nat}
    (commits : machine.exact.Commits .input address)
    (running : ¬ machine.exact.Halts .inputExhausted) : machine.Executes .input address := by
  have named := commits.writable rfl
  rcases answered : ByteSource.readVisible machine.source with ⟨error | _ | byte, source⟩
  · exact absurd (ByteSource.readVisible_eq_iff.mp answered) (commits.permitted error source)
  · exact absurd ⟨address, commits.toAt, named, source, ByteSource.readVisible_eq_iff.mp answered⟩
      running
  · refine executes_of_plan commits.toAt _ (plan_input named) ?_
      ⟨byte, source, ByteSource.readVisible_eq_iff.mp answered, ?_⟩
    · simp only [perform, answered]
      rfl
    · have changed := exact_put_register { machine with source } address byte.toUInt16
      rw [UInt8.toNat_toUInt16] at changed
      simp only [perform, answered]
      exact congrArg (Exact.moveTo · _) changed

/-- An operation that can be executed is executed. -/
theorem executes_of_commits {machine : Machine σ τ} {opcode : Opcode} {address : Nat}
    (literal : machine.registers.Literal) (entries : ∀ entry ∈ machine.stack, entry.UpTo maxLiteral)
    (commits : machine.exact.Commits opcode address)
    (running : ∀ reason, ¬ machine.exact.Halts reason) : machine.Executes opcode address := by
  have here := commits.toAt
  cases opcode with
  | halt => exact absurd ⟨address, here⟩ (running .haltOpcode)
  | noop => exact executes_of_plan here .advance rfl rfl rfl
  | set =>
    obtain ⟨value, same, planned⟩ := State.plan_set literal (commits.writable rfl)
      (commits.readable 1 (by simp [Exact.sources]))
    exact step_of_assign here planned same
  | not =>
    obtain ⟨value, same, planned⟩ := State.plan_invert literal (commits.writable rfl)
      (commits.readable 1 (by simp [Exact.sources]))
    exact step_of_assign here planned same
  | rmem =>
    obtain ⟨value, same, planned⟩ := State.plan_readMemory literal (commits.writable rfl)
      (commits.readable 1 (by simp [Exact.sources])) commits.permitted
    exact step_of_assign here planned same
  | eq => exact step_of_binary .eq literal commits
  | gt => exact step_of_binary .gt literal commits
  | add => exact step_of_binary .add literal commits
  | mult => exact step_of_binary .mult literal commits
  | mod => exact step_of_binary .mod literal commits
  | and => exact step_of_binary .and literal commits
  | or => exact step_of_binary .or literal commits
  | push =>
    refine executes_of_source commits (by simp [Exact.sources]) (fun word => .push (.ofWord word))
      rfl ?_
    intro word same
    simp only [Exact.Effect, same]
    exact ⟨rfl, rfl⟩
  | jmp =>
    refine executes_of_source commits (by simp [Exact.sources]) .jump rfl ?_
    intro word same
    simp only [Exact.Effect, same]
    exact ⟨rfl, rfl⟩
  | call =>
    refine executes_of_source commits (by simp [Exact.sources]) .call rfl ?_
    intro word same
    simp only [Exact.Effect, same]
    exact ⟨rfl, rfl⟩
  | jt =>
    have branch := step_of_branch true commits rfl
      (by simp only [Exact.sources]; split <;> simp) (by simp +contextual [Exact.sources])
    simpa only [Executes, Exact.Effect, iff_true, ne_eq, ite_not] using branch
  | jf =>
    have branch := step_of_branch false commits rfl
      (by simp only [Exact.sources]; split <;> simp) (by simp +contextual [Exact.sources])
    simpa [Executes, Exact.Effect] using branch
  | wmem => exact executes_wmem literal commits
  | ret => exact executes_ret here fun empty => running .emptyReturn ⟨⟨address, here⟩, empty⟩
  | pop => exact executes_pop entries commits
  | output => exact executes_output commits
  | input => exact executes_input commits (running .inputExhausted)

/-- The seven operations that compute a word from two others pass their checks on valid operands
only. -/
theorem commits_of_binary {machine : Machine σ τ} (operation : Binary) {address : Nat}
    {action : Action} (here : machine.exact.At operation.opcode address)
    (planned : machine.toState.plan (machine.instructionAt operation.opcode address) = .ok action) :
    machine.exact.Commits operation.opcode address := by
  have sources := machine.exact.sources_binary operation address
  have decoded := machine.instructionAt_binary operation address
  rw [decoded] at planned
  obtain ⟨left, leftRead, planned⟩ := bind_ok planned
  obtain ⟨right, rightRead, planned⟩ := bind_ok planned
  obtain ⟨value, computed, assigned⟩ := bind_ok planned
  refine ⟨here, ?_, fun _ => (State.assignment_ok assigned).2, ?_⟩
  · rw [sources]
    exact List.forall_mem_cons.mpr ⟨(Registers.resolve_ok leftRead).1,
      List.forall_mem_singleton.mpr (Registers.resolve_ok rightRead).1⟩
  · cases operation with
    | mod =>
      intro zero
      have divisor : right.toNat = 0 := (Registers.resolve_ok rightRead).2.trans zero
      rw [Binary.apply_mod_zero left right divisor] at computed
      cases computed
    | _ => trivial

/-- An operation without a destination needs its sources and what else the table asks for. -/
theorem commits_of_readable {machine : Machine σ τ} {opcode : Opcode} {address : Nat}
    (here : machine.exact.At opcode address)
    (readable : ∀ position ∈ machine.exact.sources opcode address,
      machine.exact.operand address position ≤ lastOperand)
    (unstored : Exact.stores opcode = false) (permitted : machine.exact.Permits opcode address) :
    machine.exact.Commits opcode address := by
  refine ⟨here, readable, ?_, permitted⟩
  intro stored
  rw [unstored] at stored
  cases stored

/-- An operation that passes its checks and goes on can be executed. -/
theorem commits_of_plan {machine : Machine σ τ} {opcode : Opcode} {address : Nat} {action : Action}
    (here : machine.exact.At opcode address)
    (planned : machine.toState.plan (machine.instructionAt opcode address) = .ok action)
    (committed : (machine.perform (address + 1 + opcode.arity) action).2 = .ok none) :
    machine.exact.Commits opcode address := by
  cases opcode with
  | halt => exact commits_of_readable here (List.forall_mem_nil _) rfl trivial
  | noop => exact commits_of_readable here (List.forall_mem_nil _) rfl trivial
  | ret => exact commits_of_readable here (List.forall_mem_nil _) rfl trivial
  | eq => exact commits_of_binary .eq here planned
  | gt => exact commits_of_binary .gt here planned
  | add => exact commits_of_binary .add here planned
  | mult => exact commits_of_binary .mult here planned
  | mod => exact commits_of_binary .mod here planned
  | and => exact commits_of_binary .and here planned
  | or => exact commits_of_binary .or here planned
  | set =>
    obtain ⟨value, _, assigned⟩ := bind_ok planned
    exact ⟨here, List.forall_mem_singleton.mpr (Registers.resolve_bind_ok planned),
      fun _ => (State.assignment_ok assigned).2, trivial⟩
  | not =>
    obtain ⟨value, _, assigned⟩ := bind_ok planned
    exact ⟨here, List.forall_mem_singleton.mpr (Registers.resolve_bind_ok planned),
      fun _ => (State.assignment_ok assigned).2, trivial⟩
  | rmem =>
    obtain ⟨cell, read, planned⟩ := bind_ok planned
    obtain ⟨word, found, assigned⟩ := bind_ok planned
    obtain ⟨valid, same⟩ := Registers.resolve_ok read
    obtain ⟨held, named⟩ := State.assignment_ok assigned
    refine ⟨here, List.forall_mem_singleton.mpr valid, fun _ => named, ?_⟩
    rw [Memory.read_ok found, same] at held
    exact held
  | push =>
    have valid := Registers.resolve_bind_ok planned
    exact commits_of_readable here (List.forall_mem_singleton.mpr valid) rfl trivial
  | jmp =>
    have valid := Registers.resolve_bind_ok planned
    exact commits_of_readable here (List.forall_mem_singleton.mpr valid) rfl trivial
  | call =>
    have valid := Registers.resolve_bind_ok planned
    exact commits_of_readable here (List.forall_mem_singleton.mpr valid) rfl trivial
  | wmem =>
    have target := Registers.resolve_bind_ok planned
    obtain ⟨_, _, planned⟩ := bind_ok planned
    have value := Registers.resolve_bind_ok planned
    refine commits_of_readable here ?_ rfl trivial
    exact List.forall_mem_cons.mpr ⟨target, List.forall_mem_singleton.mpr value⟩
  | jt =>
    obtain ⟨condition, target⟩ := branch_readable true rfl planned
    refine commits_of_readable here ?_ rfl trivial
    simp only [Exact.sources]
    split
    · exact List.forall_mem_singleton.mpr condition
    · rename_i nonzero
      exact List.forall_mem_cons.mpr ⟨condition,
        List.forall_mem_singleton.mpr (target (by simp [nonzero]))⟩
  | jf =>
    obtain ⟨condition, target⟩ := branch_readable false rfl planned
    refine commits_of_readable here ?_ rfl trivial
    simp only [Exact.sources]
    split
    · rename_i zero
      exact List.forall_mem_cons.mpr ⟨condition,
        List.forall_mem_singleton.mpr (target (by simp [zero]))⟩
    · exact List.forall_mem_singleton.mpr condition
  | output =>
    obtain ⟨value, read, emitted⟩ := bind_ok planned
    obtain ⟨valid, same⟩ := Registers.resolve_ok read
    cases emitted
    refine commits_of_readable here (List.forall_mem_singleton.mpr valid) rfl ?_
    have low : UInt8.ofNat (machine.exact.value address 0) = value.toUInt8 :=
      congrArg UInt8.ofNat same.symm
    rcases answered : ByteSink.writeByte machine.sink value.toUInt8 with ⟨_ | _, sink⟩
    · rw [perform, answered] at committed
      cases committed
    · rw [Exact.Permits, low]
      exact congrArg Prod.fst answered
  | pop =>
    obtain ⟨register, named, planned⟩ := bind_ok planned
    refine ⟨here, List.forall_mem_nil _, fun _ => (Operand.wordDestination_ok named).1, ?_⟩
    intro empty
    have nothing : machine.stack = [] := empty
    simp only [nothing] at planned
    cases planned
  | input =>
    obtain ⟨register, named, planned⟩ := bind_ok planned
    cases planned
    refine ⟨here, List.forall_mem_nil _, fun _ => (Operand.wordDestination_ok named).1, ?_⟩
    intro error rest answers
    have answered : ByteSource.readVisible machine.source = (.error error, rest) :=
      ByteSource.readVisible_eq_iff.mpr answers
    rw [perform, answered] at committed
    cases committed

/-- Whatever executes an operation was able to. -/
theorem commits_of_step {machine : Machine σ τ} (committed : machine.step.2 = .ok none) :
    ∃ opcode address, machine.exact.Commits opcode address := by
  rcases machine.step_cases with ⟨error, stopped, _⟩ | ⟨_, _, action, fetched, planned, performed⟩
  · rw [stopped] at committed
    cases committed
  · obtain ⟨opcode, address, fetches, rfl, rfl⟩ := State.fetch_ok fetched
    rw [performed] at committed
    have here := (machine.exact_at_iff opcode address).mpr fetches
    exact ⟨opcode, address, commits_of_plan here planned committed⟩

theorem step_of_halts {machine : Machine σ τ} {reason : HaltReason}
    (halts : machine.exact.Halts reason) : machine.step.2 = .ok (some reason) := by
  cases reason with
  | haltOpcode =>
    obtain ⟨address, here⟩ := halts
    rw [step_at here rfl]
    rfl
  | emptyReturn =>
    obtain ⟨⟨address, here⟩, empty⟩ := halts
    have nothing : machine.stack = [] := empty
    have planned : machine.toState.plan (machine.instructionAt .ret address) =
        .ok (.stop .emptyReturn) := by
      simp only [instructionAt, Instruction.decode, State.plan, nothing]
    rw [step_at here planned]
    rfl
  | inputExhausted =>
    obtain ⟨address, here, named, rest, answers⟩ := halts
    have answered : ByteSource.readVisible machine.source = (.ok none, rest) :=
      ByteSource.readVisible_eq_iff.mpr answers
    rw [step_at here (plan_input named), perform, answered]
    rfl

theorem halts_of_step {machine : Machine σ τ} {reason : HaltReason}
    (bounded : machine.toState.Bounded) (halted : machine.step.2 = .ok (some reason)) :
    machine.exact.Halts reason := by
  have stops := step_stops bounded (by rw [halted]; simp)
  generalize machine.step = result at halted stops
  cases stops with
  | fetch failed => cases halted
  | check fetched failed => cases halted
  | refused fetched answer => cases halted
  | unread fetched named answer => cases halted
  | exhausted fetched named answer =>
    cases halted
    obtain ⟨address, fetches, decoded⟩ := State.fetch_opcode fetched
    cases Instruction.input.inj decoded
    exact ⟨address, (machine.exact_at_iff .input address).mpr fetches,
      (Operand.wordDestination_ok named).1, _, ByteSource.readVisible_eq_iff.mp answer⟩
  | halted fetched =>
    cases halted
    obtain ⟨address, fetches, _⟩ := State.fetch_opcode fetched
    exact ⟨address, (machine.exact_at_iff .halt address).mpr fetches⟩
  | returned fetched empty =>
    cases halted
    obtain ⟨address, fetches, _⟩ := State.fetch_opcode fetched
    exact ⟨⟨address, (machine.exact_at_iff .ret address).mpr fetches⟩, empty⟩

end Machine

/-- A step follows the instruction table, from every state whose registers and stack hold literals.
It halts exactly where the table does. Otherwise it commits exactly when the operation at the
program counter can be executed, and then has the effect of that operation and no other. -/
theorem Machine.step_follows_table [ByteSource σ] [ByteSink τ] {machine : Machine σ τ}
    (literal : machine.registers.Literal)
    (entries : ∀ entry ∈ machine.stack, entry.UpTo maxLiteral) :
    (∀ reason, machine.step.2 = .ok (some reason) ↔ machine.exact.Halts reason) ∧
    ((∀ reason, ¬ machine.exact.Halts reason) →
      (machine.step.2 = .ok none ↔ ∃ opcode address, machine.exact.Commits opcode address)) ∧
    (machine.step.2 = .ok none → ∃ opcode address, machine.exact.Commits opcode address ∧
      machine.exact.Effect opcode address machine.step.1.exact) := by
  have limits := word_limits
  have bounded : machine.toState.Bounded :=
    ⟨literal, fun entry member => (entries entry member).mono (by omega)⟩
  have halting (reason : HaltReason) :
      machine.step.2 = .ok (some reason) ↔ machine.exact.Halts reason :=
    ⟨halts_of_step bounded, step_of_halts⟩
  refine ⟨halting, ?_, ?_⟩
  · intro running
    constructor
    · exact commits_of_step
    · rintro ⟨opcode, address, commits⟩
      exact (executes_of_commits literal entries commits running).1
  · intro committed
    have running (reason : HaltReason) : ¬ machine.exact.Halts reason := by
      intro halts
      rw [step_of_halts halts] at committed
      cases committed
    obtain ⟨opcode, address, commits⟩ := commits_of_step committed
    exact ⟨opcode, address, commits, (executes_of_commits literal entries commits running).2⟩

theorem Machine.step_follows_table_lastCall :
    lastCall.registers.Literal ∧ (∀ entry ∈ lastCall.stack, entry.UpTo maxLiteral) ∧
      lastCall.step.2 = .ok none ∧
      lastCall.step.1.exact = (lastCall.exact.push 32768).moveTo (.ofNat 0) := by
  have literal : lastCall.registers.Literal := Registers.literal_zero
  have entries : ∀ entry ∈ lastCall.stack, entry.UpTo maxLiteral :=
    fun _ member => absurd member List.not_mem_nil
  have committed : lastCall.step.2 = .ok none := by
    rw [step_lastCall]
    rfl
  refine ⟨literal, entries, committed, ?_⟩
  obtain ⟨_, _, effect⟩ := Machine.step_follows_table literal entries
  obtain ⟨opcode, address, commits, effect⟩ := effect committed
  have here : lastCall.exact.At .call 32766 :=
    (lastCall.exact_at_iff .call 32766).mpr State.fetches_lastCall
  obtain ⟨rfl, rfl⟩ := commits.toAt.unique here
  have memory : lastCall.memory = State.lastCall.memory := rfl
  have operand : lastCall.exact.operand 32766 0 = 0 := by
    rw [exact_operand, memory, State.lastCall_operand]
    rfl
  have target : lastCall.exact.value 32766 0 = 0 := by
    rw [Exact.value, operand]
    exact if_pos (Nat.zero_le _)
  simpa only [Exact.Effect, target, Opcode.arity] using effect

end AdventureMachine
