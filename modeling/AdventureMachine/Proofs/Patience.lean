import AdventureMachine.Proofs.ControlFlow
import AdventureMachine.Proofs.Resume
import Mathlib.Data.Finset.Prod

/-! How long a guest program can go on. Plain code changes two registers, the program counter and
the transports, and nothing else. A machine that will stop never meets the same program counter, the
same two registers and the same input ahead twice, for then it would go round for ever. So a program
that comes to wait does so within a bound that depends only on how much input there is. -/
namespace AdventureMachine

/-- The actions of plain code. -/
inductive Action.Mild : Action → Prop where
  | advance : Mild .advance
  | assign (value : UInt16) : Mild (.assign 2 value)
  | jump (target : UInt16) : Mild (.jump target)
  | emit (byte : UInt8) : Mild (.emit byte)
  | receive : Mild (.receive 1)

theorem BufferedInput.readVisible_suffix (input : BufferedInput) :
    (ByteSource.readVisible input).2.upcoming <:+ input.upcoming := by
  obtain ⟨_, count, middle, skips, last⟩ := ByteSource.readVisible_answers input
  have skipped : middle.upcoming <:+ input.upcoming := ⟨_, (skips.upcoming content).symm⟩
  refine List.IsSuffix.trans ?_ skipped
  cases held : middle.upcoming with
  | nil =>
    rw [readByte_of_nil held] at last
    rw [← congrArg Prod.snd last, held]
  | cons byte others =>
    obtain ⟨answer, rest⟩ := readByte_of_cons held
    rw [answer] at last
    rw [← congrArg Prod.snd last, rest]
    exact List.suffix_cons byte others

/-- What plain code leaves of a machine: its stack, all registers but the two it works with, and a
part of the input ahead. -/
structure Machine.Spares (origin machine : Adventure) : Prop where
  stack : machine.stack = origin.stack
  registers : ∀ index, index ≠ 1 → index ≠ 2 →
    machine.registers.get index = origin.registers.get index
  source : machine.source.upcoming <:+ origin.source.upcoming

namespace Machine

variable {origin machine : Adventure}

theorem Spares.refl (machine : Adventure) : Spares machine machine :=
  ⟨rfl, fun _ _ _ => rfl, List.suffix_rfl⟩

theorem Spares.trans {next : Adventure} (first : Spares origin machine)
    (second : Spares machine next) : Spares origin next := by
  refine ⟨second.stack.trans first.stack, ?_, second.source.trans first.source⟩
  intro index other another
  rw [second.registers index other another, first.registers index other another]

/-- A mild action does no more than plain code may. -/
theorem spares_perform (machine : Adventure) (next : Nat) {action : Action} (mild : action.Mild) :
    Spares machine (machine.perform next action).1 := by
  have put {register : Fin registerCount} (used : register = 1 ∨ register = 2) (value : UInt16)
      (index : Fin registerCount) (other : index ≠ 1) (another : index ≠ 2) :
      (machine.registers.put register value).get index = machine.registers.get index := by
    rw [Registers.get_put, if_neg]
    rintro rfl
    exact used.elim other another
  cases mild with
  | advance => exact ⟨rfl, fun _ _ _ => rfl, List.suffix_rfl⟩
  | assign value => exact ⟨rfl, put (.inr rfl) value, List.suffix_rfl⟩
  | jump target => exact ⟨rfl, fun _ _ _ => rfl, List.suffix_rfl⟩
  | emit byte => exact ⟨rfl, fun _ _ _ => rfl, List.suffix_rfl⟩
  | receive =>
    have suffix := machine.source.readVisible_suffix
    rcases answered : ByteSource.readVisible machine.source with ⟨error | _ | byte, rest⟩
    · simp only [perform, answered] at suffix ⊢
      exact ⟨rfl, fun _ _ _ => rfl, suffix⟩
    · simp only [perform, answered, halt] at suffix ⊢
      exact ⟨rfl, fun _ _ _ => rfl, suffix⟩
    · simp only [perform, answered, commit] at suffix ⊢
      exact ⟨rfl, put (.inl rfl) _, suffix⟩

end Machine

namespace State

variable {state other : State} {action : Action}

theorem ext_fields (memory : state.memory = other.memory)
    (registers : state.registers = other.registers) (stack : state.stack = other.stack)
    (pc : state.pc = other.pc) : state = other := by
  cases state
  cases other
  cases memory
  cases registers
  cases stack
  cases pc
  rfl

theorem mild_output {a : UInt16} (planned : state.plan (.output a) = .ok action) : action.Mild := by
  obtain ⟨value, _, same⟩ := bind_ok planned
  cases same
  exact .emit _

theorem mild_jump {a : UInt16} (planned : state.plan (.jump a) = .ok action) : action.Mild := by
  obtain ⟨target, _, same⟩ := bind_ok planned
  cases same
  exact .jump _

theorem mild_branch {wanted : Bool} {a b : UInt16}
    (planned : state.plan (.branch wanted a b) = .ok action) : action.Mild := by
  obtain ⟨condition, resolved, _⟩ := bind_ok planned
  rw [plan_branch resolved] at planned
  split at planned
  · exact mild_jump planned
  · cases planned
    exact .advance

theorem mild_binary {operation : Binary} {a b c : UInt16}
    (named : Operand.wordDestination a = .ok 2)
    (planned : state.plan (.binary operation a b c) = .ok action) : action.Mild := by
  obtain ⟨left, _, rest⟩ := bind_ok planned
  obtain ⟨right, _, rest⟩ := bind_ok rest
  obtain ⟨value, _, assigned⟩ := bind_ok rest
  obtain ⟨kept, _, rest⟩ := bind_ok assigned
  rw [named] at rest
  cases rest
  exact .assign _

end State

namespace Site

variable {site : Site} {machine : Adventure}

/-- Closed code plans mild actions only. -/
theorem Safe.plans_mild (safe : site.Safe machine) {instruction : Instruction} {next : Nat}
    {action : Action} (fetched : machine.toState.fetch = .ok (instruction, next))
    (planned : machine.toState.plan instruction = .ok action) : action.Mild := by
  obtain ⟨start, stands, lands⟩ := safe
  obtain ⟨opcode, arguments, rest, stop, lies, closed⟩ := lands.instruction
  cases closed.plain _ List.mem_cons_self with
  | output spelled =>
    rw [stands.fetch lies rfl] at fetched
    cases fetched
    exact State.mild_output planned
  | read =>
    rw [stands.fetch lies rfl] at fetched
    cases fetched
    have read := planned.symm.trans (plan_readNext _)
    cases read
    exact .receive
  | compare spelled =>
    rw [stands.fetch lies rfl] at fetched
    cases fetched
    exact State.mild_binary (Argument.wordDestination_register site.spot 2) planned
  | branch placed =>
    rw [stands.fetch lies rfl] at fetched
    cases fetched
    exact State.mild_branch planned
  | jump placed =>
    rw [stands.fetch lies rfl] at fetched
    cases fetched
    exact State.mild_jump planned

theorem Safe.spares_step (safe : site.Safe machine) : Machine.Spares machine machine.step.1 := by
  rcases machine.step_cases with
    ⟨error, stopped, _⟩ | ⟨instruction, next, action, fetched, planned, performed⟩
  · rw [stopped]
    exact .refl machine
  · rw [performed]
    exact machine.spares_perform next (safe.plans_mild fetched planned)

theorem Safe.spares_after (reaches : ∀ name, site.known name → site.Lands (site.spot name))
    (safe : site.Safe machine) (count : Nat) : Machine.Spares machine (machine.after count) := by
  induction count generalizing machine with
  | zero => exact .refl machine
  | succ count ih => exact safe.spares_step.trans (ih (safe.step reaches).safe)

end Site

namespace Machine

variable {origin machine other last : Adventure} {count : Nat}

/-- What decides how plain code goes on: where it stands, what its two registers hold and how much
input is ahead. -/
def footing (machine : Adventure) : Nat × Nat × Nat × Nat :=
  (machine.pc.truncate.toNat, (machine.registers.get 1).toNat, (machine.registers.get 2).toNat,
    machine.source.upcoming.length)

/-- On one footing, machines that plain code has left of the same machine are alike. -/
theorem Spares.alike {site : Site} (spares : Spares origin machine) (spared : Spares origin other)
    (safe : site.Safe machine) (secure : site.Safe other) (same : machine.footing = other.footing) :
    Alike machine other := by
  obtain ⟨start, stands, _⟩ := safe
  obtain ⟨place, placed, _⟩ := secure
  simp only [footing, Prod.mk.injEq, stands.counter, placed.counter, Number.truncate,
    Int.toNat_natCast, Int.ofNat_eq_natCast, UInt16.toNat_inj] at same
  obtain ⟨counters, units, outcomes, ahead⟩ := same
  have registers : machine.registers = other.registers := by
    apply Registers.ext_get
    intro index
    by_cases unit : index = 1
    · rw [unit, units]
    by_cases outcome : index = 2
    · rw [outcome, outcomes]
    rw [spares.registers index unit outcome, spared.registers index unit outcome]
  refine ⟨?_, ?_, BufferedOutput.alike _ _⟩
  · apply State.ext_fields
    · rw [stands.memory, placed.memory]
    · exact registers
    · rw [spares.stack, spared.stack]
    · rw [stands.counter, placed.counter, counters]
  · have suffix := List.suffix_of_suffix_length_le spares.source spared.source (Nat.le_of_eq ahead)
    exact (BufferedInput.alike_iff _ _).mpr (suffix.eq_of_length ahead)

/-- A machine that will stop is not alike what it becomes on the way. -/
theorem Commits.not_alike (commits : Commits count machine last) (stopped : last.step.2 ≠ .ok none)
    {early late : Nat} (less : early < late) (within : late ≤ count) :
    ¬ Alike (machine.after early) (machine.after late) := by
  intro alike
  have further := (alike.after (count - late)).alike.step.1
  rw [after_add, after_add, Nat.add_sub_cancel' within, commits.eq_after] at further
  have committed := commits.committed_of_lt (commits.take (show early + (count - late) ≤ count by omega))
    (by omega)
  exact stopped (further.symm.trans committed)

end Machine

/-- Distinct entries of a finite table are no more than it has. -/
theorem lt_of_distinct {cells words ahead count : Nat} (entry : Nat → Nat × Nat × Nat × Nat)
    (inside : ∀ index ≤ count, (entry index).1 < cells ∧ (entry index).2.1 < words ∧
      (entry index).2.2.1 < words ∧ (entry index).2.2.2 ≤ ahead)
    (distinct : ∀ early late, early < late → late ≤ count → entry early ≠ entry late) :
    count < cells * (words * (words * (ahead + 1))) := by
  have listed : ∀ index ∈ Finset.range (count + 1), entry index ∈
      Finset.range cells ×ˢ Finset.range words ×ˢ Finset.range words ×ˢ Finset.range (ahead + 1) := by
    intro index member
    obtain ⟨first, second, third, fourth⟩ := inside index (by simpa [Nat.lt_succ_iff] using member)
    simp only [Finset.mem_product, Finset.mem_range]
    exact ⟨first, second, third, Nat.lt_succ_of_le fourth⟩
  have injective : Set.InjOn entry (Finset.range (count + 1)) := by
    intro early first late second same
    simp only [Finset.coe_range, Set.mem_Iio] at first second
    rcases Nat.lt_trichotomy early late with before | equal | behind
    · exact absurd same (distinct early late before (by omega))
    · exact equal
    · exact absurd same.symm (distinct late early behind (by omega))
  apply Nat.lt_of_succ_le
  simpa using Finset.card_le_card_of_injOn entry listed injective

/-- So many steps are enough for a guest program that has so much input ahead. -/
def patience (ahead : Nat) : Nat :=
  memorySize * (UInt16.size * (UInt16.size * (ahead + 1)))

/-- Closed code that comes to a stop does so within its patience. -/
theorem Site.Safe.commits_lt {site : Site} {machine last : Adventure} {count : Nat}
    (reaches : ∀ name, site.known name → site.Lands (site.spot name)) (safe : site.Safe machine)
    (commits : Machine.Commits count machine last) (stopped : last.step.2 ≠ .ok none) :
    count < patience machine.source.upcoming.length := by
  rw [patience]
  apply lt_of_distinct fun passed => (machine.after passed).footing
  · intro passed _
    obtain ⟨start, stands, lands⟩ := safe.after reaches passed
    have counter : (machine.after passed).footing.1 = start := by
      rw [Machine.footing, stands.counter]
      rfl
    refine ⟨?_, UInt16.toNat_lt _, UInt16.toNat_lt _, ?_⟩
    · rw [counter]
      exact lands.inside
    · exact (safe.spares_after reaches passed).source.length_le
  · intro early late less within same
    exact commits.not_alike stopped less within
      ((safe.spares_after reaches early).alike (safe.spares_after reaches late)
        (safe.after reaches early) (safe.after reaches late) same)

end AdventureMachine
