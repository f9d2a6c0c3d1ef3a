import AdventureMachine.Image
import AdventureMachine.Machine.Run
import AdventureMachine.Proofs.Codec
import AdventureMachine.Proofs.Transport

/-! Machines that can come about from an image or a snapshot, and what holds of all of them. The
checks of an instruction bound the action that it plans; a performed action keeps registers,
stack, program counter and memory in range; so does every way to drive a machine. -/
namespace AdventureMachine

variable {σ τ : Type}

/-- What the checks of an instruction guarantee about its action: everything it puts into the
machine is in range, no stack entry is dropped, and only the instructions made for it use a
transport or halt. -/
def Action.Fits (state : State) (instruction : Instruction) : Action → Prop
  | .advance => True
  | .assign _ value | .write _ value | .pop _ value | .jump value | .call value =>
    value.toNat ≤ maxLiteral
  | .push value => value.UpTo maxLiteral
  | .ret target => target.UpTo memorySize
  | .drop _ => False
  | .emit _ => ∃ a, instruction = .output a
  | .receive register => ∃ a, instruction = .input a ∧ Operand.wordDestination a = .ok register
  | .stop .haltOpcode => instruction = .halt
  | .stop .emptyReturn => instruction = .ret ∧ state.stack = []
  | .stop .inputExhausted => False

namespace State

/-- The program counter is on an operation whose operands all lie inside memory. -/
structure Fetches (state : State) (opcode : Opcode) (address : Nat) : Prop where
  counter : state.pc = .ofNat address
  inside : address + opcode.arity < memorySize
  encoded : (state.memory.word address).toNat = opcode.code

theorem Fetches.fetch_eq {state : State} {opcode : Opcode} {address : Nat}
    (fetches : state.Fetches opcode address) :
    state.fetch = .ok
      (.decode opcode fun position => state.memory.word (address + 1 + position),
        address + 1 + opcode.arity) := by
  have bound : address < memorySize := Nat.lt_of_le_of_lt (Nat.le_add_right _ _) fetches.inside
  have read := state.memory.word_eq_get ⟨address, bound⟩
  simp only at read
  simp only [fetch, fetches.counter, Number.index?_ofNat bound, ← read, fetches.encoded,
    Opcode.ofCode?_code, fetches.inside, ↓reduceIte]

/-- Whatever is fetched is an operation inside memory with its operands. -/
theorem fetch_ok {state : State} {instruction : Instruction} {next : Nat}
    (fetched : state.fetch = .ok (instruction, next)) :
    ∃ opcode address, state.Fetches opcode address ∧
      instruction = .decode opcode (fun position => state.memory.word (address + 1 + position)) ∧
      next = address + 1 + opcode.arity := by
  unfold fetch at fetched
  split at fetched
  · cases fetched
  · rename_i address found
    simp only at fetched
    split at fetched
    · cases fetched
    · rename_i opcode encoded
      split at fetched
      · rename_i inside
        cases fetched
        refine ⟨opcode, address, ⟨Number.eq_ofNat_of_index? found, inside, ?_⟩, rfl, rfl⟩
        rw [Memory.word_eq_get, Opcode.code_eq_of_ofCode? encoded]
      · cases fetched

theorem fetch_next_le {state : State} {instruction : Instruction} {next : Nat}
    (fetched : state.fetch = .ok (instruction, next)) : next ≤ memorySize := by
  obtain ⟨opcode, address, fetches, _, rfl⟩ := fetch_ok fetched
  have inside := fetches.inside
  omega

theorem assignment_meets {state : State} {instruction : Instruction}
    (literal : state.registers.Literal) (destination word : UInt16) :
    Meets (Action.Fits state instruction) Error.OfCheck (state.assignment destination word) :=
  (literal.resolve_meets word).bind fun _ bound =>
    (Operand.wordDestination_meets destination).bind fun _ _ => bound

/-- An instruction plans an action in range or fails a check of its operands; no check finds an
address outside memory. A popped entry is never dropped: the address behind memory, the only entry
that is no literal, is read as a register. -/
theorem Bounded.plan_meets {state : State} (bounded : state.Bounded) (instruction : Instruction) :
    Meets (Action.Fits state instruction) Error.OfCheck (state.plan instruction) := by
  have resolves := bounded.registers.resolve_meets
  have assigns := @assignment_meets state instruction bounded.registers
  cases instruction with
  | halt => exact rfl
  | noop => trivial
  | set a b => exact (resolves b).bind fun value _ => assigns a value
  | push a => exact (resolves a).bind fun _ bound => Number.upTo_ofWord bound
  | pop a =>
    refine (Operand.wordDestination_meets a).bind fun register _ => ?_
    cases held : state.stack with
    | nil => trivial
    | cons top rest =>
      obtain ⟨value, loaded, number, same, bound⟩ :=
        bounded.registers.load_entry (bounded.stack top (by simp [held]))
      have limits := word_limits
      -- The loaded value goes through a word, which keeps it because it is a literal.
      have kept : (Number.ofNat number).toWord.toNat = number := Number.toNat_toWord (by omega)
      simp only [loaded, same]
      exact Nat.le_trans (Nat.le_of_eq kept) bound
  | binary operation a b c =>
    refine (resolves b).bind fun left leftBound => ?_
    refine (resolves c).bind fun right rightBound => ?_
    exact (operation.apply_meets leftBound rightBound).bind fun value _ => assigns a value
  | jump a => exact (resolves a).bind fun _ bound => bound
  | branch wanted a b =>
    refine (resolves a).bind fun condition _ => ?_
    split
    · exact (resolves b).bind fun _ bound => bound
    · trivial
  | invert a b => exact (resolves b).bind fun value _ => assigns a _
  | readMemory a b =>
    refine (resolves b).bind fun address bound => ?_
    exact (state.memory.read_meets bound).bind fun word _ => assigns a word
  | writeMemory a b =>
    refine (resolves a).bind fun address bound => ?_
    refine (resolves b).bind fun value valueBound => ?_
    obtain ⟨index, found, _⟩ := Number.index?_ofWord bound
    rw [found]
    exact valueBound
  | call a => exact (resolves a).bind fun _ bound => bound
  | ret =>
    unfold plan
    cases held : state.stack with
    | nil => exact ⟨rfl, held⟩
    | cons top rest => exact bounded.stack top (by simp [held])
  | output a => exact (resolves a).bind fun _ _ => ⟨a, rfl⟩
  | input a => exact (Operand.wordDestination_meets a).bind fun _ named => ⟨a, rfl, named⟩

theorem Bounded.plan_fits {state : State} {instruction : Instruction} {action : Action}
    (bounded : state.Bounded) (planned : state.plan instruction = .ok action) :
    action.Fits state instruction := by
  simpa only [planned, Meets] using bounded.plan_meets instruction

end State

namespace Machine

section Stepping

variable [ByteSource σ] [ByteSink τ]

theorem step_of_fetch_error {machine : Machine σ τ} {error : Error}
    (failed : machine.toState.fetch = .error error) : machine.step = (machine, .error error) := by
  simp only [step, failed]

theorem step_of_plan_error {machine : Machine σ τ} {instruction : Instruction} {next : Nat}
    {error : Error} (fetched : machine.toState.fetch = .ok (instruction, next))
    (failed : machine.toState.plan instruction = .error error) :
    machine.step = (machine, .error error) := by
  simp only [step, fetched, failed]

theorem step_of_plan {machine : Machine σ τ} {instruction : Instruction} {next : Nat}
    {action : Action} (fetched : machine.toState.fetch = .ok (instruction, next))
    (planned : machine.toState.plan instruction = .ok action) :
    machine.step = machine.perform next action := by
  simp only [step, fetched, planned]

/-- A step stops at a failed check and changes nothing, or performs the action it planned. -/
theorem step_cases (machine : Machine σ τ) :
    (∃ error, machine.step = (machine, .error error) ∧
      (machine.toState.fetch = .error error ∨
        ∃ instruction next, machine.toState.fetch = .ok (instruction, next) ∧
          machine.toState.plan instruction = .error error)) ∨
    ∃ instruction next action, machine.toState.fetch = .ok (instruction, next) ∧
      machine.toState.plan instruction = .ok action ∧
      machine.step = machine.perform next action := by
  cases fetched : machine.toState.fetch with
  | error error => exact .inl ⟨error, step_of_fetch_error fetched, .inl rfl⟩
  | ok pair =>
    obtain ⟨instruction, next⟩ := pair
    cases planned : machine.toState.plan instruction with
    | error error =>
      exact .inl ⟨error, step_of_plan_error fetched planned, .inr ⟨instruction, next, rfl, planned⟩⟩
    | ok action =>
      exact .inr ⟨instruction, next, action, rfl, planned, step_of_plan fetched planned⟩

/-- The ways in which a step does not commit: a check fails, a transport fails, the input is
exhausted, or the instruction halts. Each comes with the machine and the outcome it leaves. -/
inductive Stops (machine : Machine σ τ) : Machine σ τ × Outcome → Prop where
  | fetch {error : Error} (failed : machine.toState.fetch = .error error) :
      Stops machine (machine, .error error)
  | check {instruction : Instruction} {next : Nat} {error : Error}
      (fetched : machine.toState.fetch = .ok (instruction, next))
      (failed : machine.toState.plan instruction = .error error) :
      Stops machine (machine, .error error)
  | refused {a : UInt16} {next : Nat} {byte : UInt8} {error : Error} {rest : τ}
      (fetched : machine.toState.fetch = .ok (.output a, next))
      (answer : ByteSink.writeByte machine.sink byte = (.error error, rest)) :
      Stops machine ({ machine with sink := rest }, .error error)
  | unread {a : UInt16} {next : Nat} {register : Fin registerCount} {error : Error} {rest : σ}
      (fetched : machine.toState.fetch = .ok (.input a, next))
      (named : Operand.wordDestination a = .ok register)
      (answer : ByteSource.readVisible machine.source = (.error error, rest)) :
      Stops machine ({ machine with source := rest }, .error error)
  | exhausted {a : UInt16} {next : Nat} {register : Fin registerCount} {rest : σ}
      (fetched : machine.toState.fetch = .ok (.input a, next))
      (named : Operand.wordDestination a = .ok register)
      (answer : ByteSource.readVisible machine.source = (.ok none, rest)) :
      Stops machine (halt { machine with source := rest } .inputExhausted)
  | halted {next : Nat} (fetched : machine.toState.fetch = .ok (.halt, next)) :
      Stops machine (machine.halt .haltOpcode)
  | returned {next : Nat} (fetched : machine.toState.fetch = .ok (.ret, next))
      (empty : machine.stack = []) : Stops machine (machine.halt .emptyReturn)

/-- Every step of a machine in range that does not commit stops in one of these ways. -/
theorem step_stops {machine : Machine σ τ} (bounded : machine.toState.Bounded)
    (stopped : machine.step.2 ≠ .ok none) : Stops machine machine.step := by
  rcases machine.step_cases with
    ⟨error, same, failed⟩ | ⟨instruction, next, action, fetched, planned, same⟩
  · rw [same]
    rcases failed with failed | ⟨instruction, next, fetched, failed⟩
    · exact .fetch failed
    · exact .check fetched failed
  · have fits := bounded.plan_fits planned
    rw [same] at stopped ⊢
    cases action with
    | advance => exact absurd rfl stopped
    | assign register value => exact absurd rfl stopped
    | write address value => exact absurd rfl stopped
    | push value => exact absurd rfl stopped
    | pop register value => exact absurd rfl stopped
    | drop error => exact fits.elim
    | jump target => exact absurd rfl stopped
    | call target => exact absurd rfl stopped
    | ret target => exact absurd rfl stopped
    | emit byte =>
      obtain ⟨a, rfl⟩ := fits
      rcases answered : ByteSink.writeByte machine.sink byte with ⟨_ | _, rest⟩
      · simpa only [perform, answered] using Stops.refused fetched answered
      · exact absurd (by simp only [perform, answered, commit]) stopped
    | receive register =>
      obtain ⟨a, rfl, named⟩ := fits
      rcases answered : ByteSource.readVisible machine.source with ⟨_ | _ | byte, rest⟩
      · simpa only [perform, answered] using Stops.unread fetched named answered
      · simpa only [perform, answered] using Stops.exhausted fetched named answered
      · exact absurd (by simp only [perform, answered, commit]) stopped
    | stop reason =>
      cases reason with
      | haltOpcode =>
        obtain rfl : instruction = .halt := fits
        exact .halted fetched
      | emptyReturn =>
        obtain ⟨rfl, empty⟩ := fits
        exact .returned fetched empty
      | inputExhausted => exact fits.elim

/-- The machine after so many steps, whatever their outcomes. -/
def after (machine : Machine σ τ) : Nat → Machine σ τ
  | 0 => machine
  | count + 1 => machine.step.1.after count

/-- A run leaves a machine that plain stepping reaches as well. -/
theorem runFrom_eq_after (budget : Nat) (machine : Machine σ τ) (steps : Nat)
    (journal : List Log.Record) :
    ∃ count, (runFrom budget machine steps journal).value.machine = machine.after count := by
  induction budget generalizing machine steps journal with
  | zero => exact ⟨0, rfl⟩
  | succ budget ih =>
    rcases stepped : machine.step with ⟨next, outcome⟩
    rcases outcome with error | _ | reason
    · exact ⟨1, by simp only [runFrom, stepped, after]⟩
    · obtain ⟨count, same⟩ := ih next (steps + 1) _
      exact ⟨count + 1, by simpa only [runFrom, stepped, after] using same⟩
    · exact ⟨1, by simp only [runFrom, stepped, after]⟩

/-- The range of a machine that was loaded as `origin`: a program counter outside memory is still
the one it was loaded with, and so is every cell above the literals. -/
structure Sound (origin : State) (machine : Machine σ τ) : Prop extends
    State.Bounded machine.toState where
  counter : machine.pc.UpTo memorySize ∨ machine.pc = origin.pc ∧ machine.steps = 0
  cells : ∀ address, maxLiteral < (machine.memory.get address).toNat →
    machine.memory.get address = origin.memory.get address

/-- Performing an action in range keeps a machine in range. -/
theorem Sound.perform {origin : State} {machine : Machine σ τ} {next : Nat} {action : Action}
    {state : State} {instruction : Instruction} (sound : Sound origin machine)
    (fits : action.Fits state instruction) (inside : next ≤ memorySize) :
    Sound origin (machine.perform next action).1 := by
  have limits := word_limits
  have onward : (Number.ofNat next).UpTo memorySize := ⟨next, rfl, inside⟩
  have target {word : UInt16} (literal : word.toNat ≤ maxLiteral) :
      (Number.ofWord word).UpTo memorySize := Number.upTo_ofWord (by omega)
  have fewer : ∀ entry ∈ machine.stack.tail, entry.UpTo memorySize :=
    fun entry member => sound.stack entry (List.mem_of_mem_tail member)
  cases action with
  | advance => exact ⟨⟨sound.registers, sound.stack⟩, .inl onward, sound.cells⟩
  | assign register value =>
    exact ⟨⟨sound.registers.put fits register, sound.stack⟩, .inl onward, sound.cells⟩
  | write address value =>
    refine ⟨⟨sound.registers, sound.stack⟩, .inl onward, ?_⟩
    intro other above
    -- The written cell holds a literal now, so a cell above the literals is another one.
    simp only [Machine.perform, commit, Memory.get_put] at above ⊢
    split at above
    · exact absurd fits (Nat.not_le.mpr above)
    · rename_i different
      rw [if_neg different]
      exact sound.cells other above
  | push value =>
    refine ⟨⟨sound.registers, ?_⟩, .inl onward, sound.cells⟩
    intro entry member
    rcases List.mem_cons.mp member with same | old
    · subst entry
      exact fits.mono (by omega)
    · exact sound.stack entry old
  | pop register value =>
    exact ⟨⟨sound.registers.put fits register, fewer⟩, .inl onward, sound.cells⟩
  | drop error => exact fits.elim
  | jump word => exact ⟨⟨sound.registers, sound.stack⟩, .inl (target fits), sound.cells⟩
  | call word =>
    refine ⟨⟨sound.registers, ?_⟩, .inl (target fits), sound.cells⟩
    intro entry member
    rcases List.mem_cons.mp member with same | old
    · subst entry
      exact onward
    · exact sound.stack entry old
  | ret address => exact ⟨⟨sound.registers, fewer⟩, .inl fits, sound.cells⟩
  | emit byte =>
    simp only [Machine.perform]
    split
    · exact ⟨⟨sound.registers, sound.stack⟩, .inl onward, sound.cells⟩
    · exact ⟨⟨sound.registers, sound.stack⟩, sound.counter, sound.cells⟩
  | receive register =>
    simp only [Machine.perform]
    split
    · rename_i byte rest _
      have small : byte.toUInt16.toNat ≤ maxLiteral := by
        rw [UInt8.toNat_toUInt16]
        have := byte.toNat_lt
        omega
      exact ⟨⟨sound.registers.put small register, sound.stack⟩, .inl onward, sound.cells⟩
    · exact ⟨⟨sound.registers, sound.stack⟩, sound.counter, sound.cells⟩
    · exact ⟨⟨sound.registers, sound.stack⟩, sound.counter, sound.cells⟩
  | stop reason => exact ⟨⟨sound.registers, sound.stack⟩, sound.counter, sound.cells⟩

theorem Sound.step {origin : State} {machine : Machine σ τ} (sound : Sound origin machine) :
    Sound origin machine.step.1 := by
  rcases machine.step_cases with
    ⟨error, stopped, _⟩ | ⟨_, next, action, fetched, planned, performed⟩
  · rw [stopped]
    exact sound
  · rw [performed]
    exact sound.perform (sound.plan_fits planned) (State.fetch_next_le fetched)

theorem Sound.after {origin : State} {machine : Machine σ τ} (sound : Sound origin machine)
    (count : Nat) : Sound origin (machine.after count) := by
  induction count generalizing machine with
  | zero => exact sound
  | succ count ih => exact ih sound.step

end Stepping

/-- Setting a register from outside stores a literal in one register. -/
theorem setRegister_ok {machine changed : Machine σ τ} {index value : Number}
    (success : machine.setRegister index value = .ok changed) :
    ∃ register word, word.toNat ≤ maxLiteral ∧
      changed = { machine with registers := machine.registers.put register word } := by
  unfold setRegister at success
  split at success
  · rename_i number
    split at success
    · rename_i inside
      have literal : machine.registers.load (.whole number) = .ok (.whole number) := by
        rw [Registers.load, if_pos inside]
      unfold Registers.set at success
      rw [literal] at success
      cases named : Operand.destination (index.shift firstRegister) with
      | error error =>
        rw [named] at success
        cases success
      | ok register =>
        rw [named] at success
        cases success
        simp only [Number.within, Bool.and_eq_true, decide_eq_true_eq] at inside
        obtain ⟨natural, rfl⟩ := Int.eq_ofNat_of_zero_le inside.1
        have limits := word_limits
        have kept : (Number.ofNat natural).toWord.toNat = natural :=
          Number.toNat_toWord (by omega)
        refine ⟨register, (Number.ofNat natural).toWord, ?_, rfl⟩
        omega
    · cases success
  · cases success

/-- A machine that was just loaded is in range of its own state. -/
theorem sound_ofState {state : State} (bounded : state.Bounded) (source : σ) (sink : τ)
    (tracing : Bool) :
    Sound (ofState state source sink tracing).toState (ofState state source sink tracing) :=
  ⟨bounded, .inr ⟨rfl, rfl⟩, fun _ _ => rfl⟩

theorem ofImage_ok {image : Bytes} {source : σ} {sink : τ} {tracing : Bool}
    {machine : Machine σ τ} (loaded : ofImage image source sink tracing = .ok machine) :
    ∃ words, Image.decode image = .ok words ∧
      machine = ofState (.initial (.ofWords words.toArray)) source sink tracing := by
  unfold ofImage at loaded
  cases decoded : Image.decode image with
  | error error => rw [decoded] at loaded; cases loaded
  | ok words =>
    rw [decoded] at loaded
    exact ⟨words, rfl, (Except.ok.inj loaded).symm⟩

theorem ofSnapshot_ok {bytes : Bytes} {source : σ} {sink : τ} {tracing : Bool}
    {machine : Machine σ τ} (loaded : ofSnapshot bytes source sink tracing = .ok machine) :
    ∃ snapshot, Snapshot.decode bytes = .ok snapshot ∧
      machine = ofState snapshot.toState source sink tracing := by
  unfold ofSnapshot at loaded
  cases decoded : Snapshot.decode bytes with
  | error error => rw [decoded] at loaded; cases loaded
  | ok snapshot =>
    rw [decoded] at loaded
    exact ⟨snapshot, rfl, (Except.ok.inj loaded).symm⟩

theorem ofSnapshot_of_decode {bytes : Bytes} {state : State}
    (decoded : (Snapshot.decode bytes).map Snapshot.toState = .ok state) (source : σ) (sink : τ)
    (tracing : Bool) :
    ofSnapshot bytes source sink tracing = .ok (ofState state source sink tracing) := by
  unfold ofSnapshot
  cases read : Snapshot.decode bytes with
  | error error => rw [read] at decoded; cases decoded
  | ok snapshot =>
    rw [read] at decoded
    rw [← Except.ok.inj decoded]
    rfl

end Machine

theorem State.bounded_initial (memory : Memory) : (State.initial memory).Bounded :=
  ⟨Registers.literal_zero, fun _ member => absurd member List.not_mem_nil⟩

theorem Snapshot.bounded_toState {bytes : Bytes} {snapshot : Snapshot}
    (decoded : decode bytes = .ok snapshot) : snapshot.toState.Bounded := by
  obtain ⟨registers, stack, _⟩ := decode_ok decoded
  have limits := word_limits
  refine ⟨?_, ?_⟩
  · intro index
    simp only [toState, Registers.get_ofValues, Array.getD]
    split
    · exact registers _ (Array.getElem_mem _)
    · exact Nat.zero_le _
  · intro entry member
    exact (stack entry (List.mem_reverse.mp member)).mono (by omega)

/-- Machines that come about by loading an image or a snapshot and then stepping, running, setting
registers and cloning onto other transports, in any order. The state is the one that was loaded. -/
inductive Reachable :
    State → {σ τ : Type} → [ByteSource σ] → [ByteSink τ] → Machine σ τ → Prop where
  | program {σ τ : Type} [ByteSource σ] [ByteSink τ] {image : Bytes} {source : σ} {sink : τ}
      {tracing : Bool} {machine : Machine σ τ}
      (loaded : Machine.ofImage image source sink tracing = .ok machine) :
      Reachable machine.toState machine
  | snapshot {σ τ : Type} [ByteSource σ] [ByteSink τ] {bytes : Bytes} {source : σ} {sink : τ}
      {tracing : Bool} {machine : Machine σ τ}
      (loaded : Machine.ofSnapshot bytes source sink tracing = .ok machine) :
      Reachable machine.toState machine
  | step {σ τ : Type} [ByteSource σ] [ByteSink τ] {origin : State} {machine : Machine σ τ}
      (earlier : Reachable origin machine) : Reachable origin machine.step.1
  | run {σ τ : Type} [ByteSource σ] [ByteSink τ] {origin : State} {machine : Machine σ τ}
      (earlier : Reachable origin machine) (budget : Nat) :
      Reachable origin (machine.run budget).value.machine
  | setRegister {σ τ : Type} [ByteSource σ] [ByteSink τ] {origin : State}
      {machine changed : Machine σ τ} {index value : Number} (earlier : Reachable origin machine)
      (success : machine.setRegister index value = .ok changed) : Reachable origin changed
  | clone {σ τ σ' τ' : Type} [ByteSource σ] [ByteSink τ] [ByteSource σ'] [ByteSink τ']
      {origin : State} {machine : Machine σ τ} (earlier : Reachable origin machine) (source : σ')
      (sink : τ') : Reachable origin (machine.rewire source sink)

/-- Every state that a snapshot holds can come about. -/
theorem reachable_ofState [ByteSource σ] [ByteSink τ] {state : State} (savable : state.Savable)
    (literals : .ofNat memorySize ∉ state.stack) (source : σ) (sink : τ) (tracing : Bool) :
    Reachable state (Machine.ofState state source sink tracing) := by
  obtain ⟨bytes, _, restores, _⟩ := savable.decode_save
  exact .snapshot (Machine.ofSnapshot_of_decode (restores literals) source sink tracing)

/-- A `call` in the last two cells: what it returns to is the address behind memory. -/
def State.lastCall : State where
  memory := Memory.zero.put 32766 17
  registers := .zero
  stack := []
  pc := .ofNat 32766

namespace State

theorem lastCall_word (address : Nat) :
    lastCall.memory.word address = if 32766 = address then 17 else 0 := by
  have rest : Memory.zero.word address = 0 := by
    simp [Memory.word, Memory.zero, Array.getD]
  simp only [lastCall, Memory.word_put, rest]
  rfl

theorem lastCall_operand : lastCall.memory.word (32766 + 1 + 0) = 0 := by
  rw [lastCall_word]
  rfl

theorem savable_lastCall : lastCall.Savable :=
  ⟨⟨Registers.literal_zero, fun _ member => absurd member List.not_mem_nil⟩,
    32766, rfl, by decide⟩

theorem fetches_lastCall : lastCall.Fetches .call 32766 :=
  ⟨rfl, by decide, by rw [lastCall_word]; rfl⟩

theorem fetch_lastCall : lastCall.fetch = .ok (.call 0, memorySize) := by
  rw [fetches_lastCall.fetch_eq, Instruction.decode, lastCall_operand]
  rfl

end State

/-- The `call` in the last two cells on transports that hold nothing. -/
def Machine.lastCall : Machine BufferedInput BufferedOutput :=
  .ofState .lastCall .empty .empty false

theorem reachable_lastCall : Reachable .lastCall Machine.lastCall :=
  reachable_ofState State.savable_lastCall List.not_mem_nil _ _ _

theorem Machine.step_lastCall : lastCall.step = lastCall.perform memorySize (.call 0) :=
  step_of_plan State.fetch_lastCall rfl

/-- The `call` leaves the address behind memory on the stack. -/
theorem Machine.toState_step_lastCall : lastCall.step.1.toState =
    { State.lastCall with stack := [.ofNat memorySize], pc := .ofNat 0 } := by
  rw [step_lastCall]
  rfl

/-- Every machine that can come about is in range. -/
theorem Reachable.sound {origin : State} [ByteSource σ] [ByteSink τ] {machine : Machine σ τ}
    (reachable : Reachable origin machine) : Machine.Sound origin machine := by
  induction reachable with
  | program loaded =>
    obtain ⟨words, _, rfl⟩ := Machine.ofImage_ok loaded
    exact Machine.sound_ofState (State.bounded_initial _) _ _ _
  | snapshot loaded =>
    obtain ⟨snapshot, decoded, rfl⟩ := Machine.ofSnapshot_ok loaded
    exact Machine.sound_ofState (Snapshot.bounded_toState decoded) _ _ _
  | step _ sound => exact sound.step
  | @run _ _ _ _ _ machine _ budget sound =>
    obtain ⟨count, same⟩ := machine.runFrom_eq_after budget 0 []
    rw [Machine.run, same]
    exact sound.after count
  | setRegister _ success sound =>
    obtain ⟨register, word, literal, rfl⟩ := Machine.setRegister_ok success
    exact ⟨⟨sound.registers.put literal register, sound.stack⟩, sound.counter, sound.cells⟩
  | clone _ source sink sound =>
    exact ⟨⟨sound.registers, sound.stack⟩, sound.counter, sound.cells⟩

end AdventureMachine
