import AdventureMachine.Proofs.Reachability

/-! The invariant of reachable machines and what it rules out: an address outside memory is only
ever found by the fetch of an instruction, and a popped entry can always be stored. -/
namespace AdventureMachine

variable {σ τ : Type} [ByteSource σ] [ByteSink τ]

/-- A `pop` fails a check for its destination or for the empty stack. -/
theorem State.plan_pop_error {state : State} {a : UInt16} {error : Error}
    (failed : state.plan (.pop a) = .error error) :
    (¬ (firstRegister ≤ a.toNat ∧ a.toNat ≤ lastOperand) ∧ error = .invalidStore (.ofWord a)) ∨
      (state.stack = [] ∧ error = .emptyStack) := by
  by_cases named : firstRegister ≤ a.toNat ∧ a.toNat ≤ lastOperand
  · right
    simp only [plan, Operand.wordDestination_of_le named.1 named.2, bind, Except.bind] at failed
    split at failed
    · rename_i empty
      cases failed
      exact ⟨empty, rfl⟩
    · split at failed <;> cases failed
  · left
    simp only [plan, Operand.wordDestination_eq_error named, bind, Except.bind] at failed
    cases failed
    exact ⟨named, rfl⟩

namespace Machine

/-- An address outside memory is reported by the fetch, or by a transport in its own name. -/
theorem step_invalidAddress {machine : Machine σ τ} {address : Number}
    (bounded : machine.toState.Bounded)
    (failed : machine.step.2 = .error (.invalidAddress address)) :
    machine.toState.fetch = .error (.invalidAddress address) ∨
    (∃ a next byte, machine.toState.fetch = .ok (.output a, next) ∧
      (ByteSink.writeByte machine.sink byte).1 = .error (.invalidAddress address)) ∨
    ∃ a next, machine.toState.fetch = .ok (.input a, next) ∧
      (ByteSource.readVisible machine.source).1 = .error (.invalidAddress address) := by
  have stops := step_stops bounded (by rw [failed]; simp)
  generalize machine.step = result at failed stops
  cases stops with
  | fetch missing => cases failed; exact .inl missing
  | @check instruction next error fetched rejected =>
    have permitted := bounded.plan_meets instruction
    cases failed
    rw [rejected] at permitted
    exact permitted.elim
  | refused fetched answer =>
    cases failed
    exact .inr (.inl ⟨_, _, _, fetched, by rw [answer]⟩)
  | unread fetched named answer =>
    cases failed
    exact .inr (.inr ⟨_, _, fetched, by rw [answer]⟩)
  | exhausted fetched named answer => cases failed
  | halted fetched => cases failed
  | returned fetched empty => cases failed

/-- A fetched `pop` that fails, fails a check. -/
theorem step_pop_error {machine : Machine σ τ} {a : UInt16} {next : Nat} {error : Error}
    (bounded : machine.toState.Bounded)
    (fetched : machine.toState.fetch = .ok (.pop a, next))
    (failed : machine.step.2 = .error error) :
    (¬ (firstRegister ≤ a.toNat ∧ a.toNat ≤ lastOperand) ∧ error = .invalidStore (.ofWord a)) ∨
      (machine.stack = [] ∧ error = .emptyStack) := by
  have stops := step_stops bounded (by rw [failed]; simp)
  generalize machine.step = result at failed stops
  cases stops with
  | fetch missing => rw [fetched] at missing; cases missing
  | check actual rejected =>
    rw [fetched] at actual
    cases actual
    cases failed
    exact State.plan_pop_error rejected
  | refused actual => rw [fetched] at actual; cases actual
  | unread actual => rw [fetched] at actual; cases actual
  | exhausted actual => rw [fetched] at actual; cases actual
  | halted actual => rw [fetched] at actual; cases actual
  | returned actual => rw [fetched] at actual; cases actual

end Machine

/-- Every reachable machine has 32768 cells of sixteen bits, eight registers that hold literals,
and stack entries up to the address behind memory. Its program counter is no further either, unless
it is the loaded one and no step was committed. A cell above the literals holds the word it was
loaded with. Hence reading and writing memory never leave it, only the fetch does, and a `pop`
fails for its destination or the empty stack alone. -/
theorem Reachable.invariant {origin : State} {machine : Machine σ τ}
    (reachable : Reachable origin machine) :
    (machine.memory.cells.toList.length = 32768 ∧
      ∀ address, (machine.memory.get address).toNat ≤ 65535) ∧
    (machine.registers.toList.length = 8 ∧
      ∀ index, (machine.registers.get index).toNat ≤ 32767) ∧
    (∀ entry ∈ machine.stack, entry.UpTo 32768) ∧
    (machine.pc.UpTo 32768 ∨ machine.pc = origin.pc ∧ machine.steps = 0) ∧
    (∀ address, 32767 < (machine.memory.get address).toNat →
      machine.memory.get address = origin.memory.get address) ∧
    (∀ a b next address,
      machine.toState.fetch = .ok (.readMemory a b, next) ∨
        machine.toState.fetch = .ok (.writeMemory a b, next) →
      machine.step.2 ≠ .error (.invalidAddress address)) ∧
    (∀ address, machine.step.2 = .error (.invalidAddress address) →
      machine.toState.fetch = .error (.invalidAddress address) ∨
      (∃ a next byte, machine.toState.fetch = .ok (.output a, next) ∧
        (ByteSink.writeByte machine.sink byte).1 = .error (.invalidAddress address)) ∨
      ∃ a next, machine.toState.fetch = .ok (.input a, next) ∧
        (ByteSource.readVisible machine.source).1 = .error (.invalidAddress address)) ∧
    ∀ a next error, machine.toState.fetch = .ok (.pop a, next) →
      machine.step.2 = .error error →
      (¬ (firstRegister ≤ a.toNat ∧ a.toNat ≤ lastOperand) ∧ error = .invalidStore (.ofWord a)) ∨
        (machine.stack = [] ∧ error = .emptyStack) := by
  have sound := reachable.sound
  refine ⟨⟨by simp, ?_⟩, ⟨by simp [Registers.toList], sound.registers⟩, sound.stack, sound.counter,
    sound.cells, ?_, fun _ failed => Machine.step_invalidAddress sound.toBounded failed,
    fun _ _ _ fetched failed => Machine.step_pop_error sound.toBounded fetched failed⟩
  · intro address
    exact Nat.le_of_lt_succ (machine.memory.get address).toNat_lt
  · intro a b next address fetched failed
    rcases Machine.step_invalidAddress sound.toBounded failed with
      missing | ⟨_, _, _, actual, _⟩ | ⟨_, _, actual, _⟩
    · rcases fetched with fetched | fetched <;> rw [fetched] at missing <;> cases missing
    · rcases fetched with fetched | fetched <;> rw [fetched] at actual <;> cases actual
    · rcases fetched with fetched | fetched <;> rw [fetched] at actual <;> cases actual

theorem Reachable.invariant_lastCall :
    Machine.lastCall.step.1.stack = [.ofNat 32768] ∧
      (∀ entry ∈ Machine.lastCall.step.1.stack, entry.UpTo 32768) ∧
      ∀ index, (Machine.lastCall.step.1.registers.get index).toNat ≤ 32767 := by
  obtain ⟨_, ⟨_, registers⟩, stack, _⟩ := Reachable.invariant (Reachable.step reachable_lastCall)
  exact ⟨congrArg State.stack Machine.toState_step_lastCall, stack, registers⟩

end AdventureMachine
