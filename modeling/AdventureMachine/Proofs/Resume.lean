import AdventureMachine.Proofs.Reachability

/-! Saved machines go on where they were. Machines in one state with transports that answer alike
run in step, whatever else is different about them. A reachable machine is restored from its own
snapshot, unless it holds the address behind memory on its stack. -/
namespace AdventureMachine

variable {σ τ σ' τ' : Type} [ByteSource σ] [ByteSink τ] [ByteSource σ'] [ByteSink τ']

namespace Machine

/-- Two machines in one state whose transports answer alike. -/
structure Alike (machine : Machine σ τ) (other : Machine σ' τ') : Prop where
  state : machine.toState = other.toState
  source : ByteSource.Alike machine.source other.source
  sink : ByteSink.Alike machine.sink other.sink

/-- Two machines went on to two machines that are alike again, and wrote the same bytes on the
way. -/
structure Keeps (machine : Machine σ τ) (other : Machine σ' τ') (after : Machine σ τ)
    (left : Machine σ' τ') : Prop where
  alike : Alike after left
  written : ∃ bytes,
    (∀ record : ByteSink.Record τ,
      record.delivered after.sink = record.delivered machine.sink ++ bytes) ∧
    ∀ record : ByteSink.Record τ',
      record.delivered left.sink = record.delivered other.sink ++ bytes

/-- Nothing is written while the sinks stay as they are. -/
theorem Keeps.silent {machine after : Machine σ τ} {other left : Machine σ' τ'}
    (alike : Alike after left) (same : after.sink = machine.sink) (still : left.sink = other.sink) :
    Keeps machine other after left :=
  ⟨alike, [], by simp [same], by simp [still]⟩

theorem Keeps.trans {machine middle after : Machine σ τ} {other between left : Machine σ' τ'}
    (first : Keeps machine other middle between) (second : Keeps middle between after left) :
    Keeps machine other after left := by
  obtain ⟨early, earlyWritten, earlyLeft⟩ := first.written
  obtain ⟨late, lateWritten, lateLeft⟩ := second.written
  refine ⟨second.alike, early ++ late, ?_, ?_⟩
  · intro record
    rw [lateWritten, earlyWritten, List.append_assoc]
  · intro record
    rw [lateLeft, earlyLeft, List.append_assoc]

/-- Alike machines perform an action alike. -/
theorem Alike.perform {machine : Machine σ τ} {other : Machine σ' τ'} (alike : Alike machine other)
    (next : Nat) (action : Action) :
    (machine.perform next action).2 = (other.perform next action).2 ∧
      Keeps machine other (machine.perform next action).1 (other.perform next action).1 := by
  obtain ⟨state, source, sink, steps, lastHalt, tracing⟩ := machine
  obtain ⟨state', source', sink', steps', lastHalt', tracing'⟩ := other
  obtain ⟨same, sources, sinks⟩ := alike
  obtain rfl : state = state' := same
  -- Only the two actions that use a transport could tell the machines apart.
  cases action with
  | emit byte =>
    have answers : (ByteSink.writeByte sink byte).1 = (ByteSink.writeByte sink' byte).1 :=
      sinks.answer byte
    have rests := sinks.rest byte
    rcases written : ByteSink.writeByte sink byte with ⟨answer, rest⟩
    rcases written' : ByteSink.writeByte sink' byte with ⟨answer', rest'⟩
    simp only [written, written'] at answers rests
    subst answers
    simp only [Machine.perform, written, written']
    cases answer with
    | ok value =>
      exact ⟨rfl, ⟨rfl, sources, rests⟩, [byte], fun record => record.accepted written,
        fun record => record.accepted written'⟩
    | error error =>
      refine ⟨rfl, ⟨rfl, sources, rests⟩, [], fun record => ?_, fun record => ?_⟩
      · rw [record.refused written, List.append_nil]
      · rw [record.refused written', List.append_nil]
  | receive register =>
    obtain ⟨answers, rests⟩ := sources.readVisible
    simp only at answers rests
    rcases found : ByteSource.readVisible source with ⟨answer, rest⟩
    rcases found' : ByteSource.readVisible source' with ⟨answer', rest'⟩
    simp only [found, found'] at answers rests
    subst answers
    simp only [Machine.perform, found, found']
    rcases answer with error | _ | byte
    · exact ⟨rfl, .silent ⟨rfl, rests, sinks⟩ rfl rfl⟩
    · exact ⟨rfl, .silent ⟨rfl, rests, sinks⟩ rfl rfl⟩
    · exact ⟨rfl, .silent ⟨rfl, rests, sinks⟩ rfl rfl⟩
  | advance => exact ⟨rfl, .silent ⟨rfl, sources, sinks⟩ rfl rfl⟩
  | assign register value => exact ⟨rfl, .silent ⟨rfl, sources, sinks⟩ rfl rfl⟩
  | write address value => exact ⟨rfl, .silent ⟨rfl, sources, sinks⟩ rfl rfl⟩
  | push value => exact ⟨rfl, .silent ⟨rfl, sources, sinks⟩ rfl rfl⟩
  | pop register value => exact ⟨rfl, .silent ⟨rfl, sources, sinks⟩ rfl rfl⟩
  | drop error => exact ⟨rfl, .silent ⟨rfl, sources, sinks⟩ rfl rfl⟩
  | jump target => exact ⟨rfl, .silent ⟨rfl, sources, sinks⟩ rfl rfl⟩
  | call target => exact ⟨rfl, .silent ⟨rfl, sources, sinks⟩ rfl rfl⟩
  | ret target => exact ⟨rfl, .silent ⟨rfl, sources, sinks⟩ rfl rfl⟩
  | stop reason => exact ⟨rfl, .silent ⟨rfl, sources, sinks⟩ rfl rfl⟩

/-- Alike machines take a step alike. -/
theorem Alike.step {machine : Machine σ τ} {other : Machine σ' τ'} (alike : Alike machine other) :
    machine.step.2 = other.step.2 ∧ Keeps machine other machine.step.1 other.step.1 := by
  have same := alike.state
  rcases machine.step_cases with
    ⟨error, stopped, failed | ⟨instruction, next, fetched, failed⟩⟩ |
      ⟨instruction, next, action, fetched, planned, performed⟩
  · have stopped' : other.step = (other, .error error) := by
      rw [same] at failed
      exact step_of_fetch_error failed
    rw [stopped, stopped']
    exact ⟨rfl, .silent alike rfl rfl⟩
  · have stopped' : other.step = (other, .error error) := by
      rw [same] at fetched failed
      exact step_of_plan_error fetched failed
    rw [stopped, stopped']
    exact ⟨rfl, .silent alike rfl rfl⟩
  · have performed' : other.step = other.perform next action := by
      rw [same] at fetched planned
      exact step_of_plan fetched planned
    rw [performed, performed']
    exact alike.perform next action

/-- Alike machines run alike. -/
theorem Alike.after {machine : Machine σ τ} {other : Machine σ' τ'} (alike : Alike machine other)
    (count : Nat) : Keeps machine other (machine.after count) (other.after count) := by
  induction count generalizing machine other with
  | zero => exact .silent alike rfl rfl
  | succ count ih =>
    obtain ⟨_, kept⟩ := alike.step
    exact kept.trans (ih kept.alike)

end Machine

/-- The loaded program counter fits the field of a snapshot. -/
theorem Reachable.origin_counter {origin : State} {machine : Machine σ τ}
    (reachable : Reachable origin machine) : origin.pc.UpTo Snapshot.maxCounter := by
  induction reachable with
  | program loaded =>
    obtain ⟨words, _, rfl⟩ := Machine.ofImage_ok loaded
    exact ⟨0, rfl, Nat.zero_le _⟩
  | snapshot loaded =>
    obtain ⟨snapshot, decoded, rfl⟩ := Machine.ofSnapshot_ok loaded
    obtain ⟨_, _, pc, counter, bound⟩ := Snapshot.decode_ok decoded
    exact ⟨pc, congrArg Number.whole counter, bound⟩
  | step _ counter => exact counter
  | run _ _ counter => exact counter
  | setRegister _ _ counter => exact counter
  | clone _ _ _ counter => exact counter

/-- Every reachable state fits the fields of a snapshot. -/
theorem Reachable.savable {origin : State} {machine : Machine σ τ}
    (reachable : Reachable origin machine) : machine.toState.Savable := by
  have sound := reachable.sound
  refine ⟨sound.toBounded, ?_⟩
  rcases sound.counter with inside | ⟨loaded, _⟩
  · exact inside.mono (by decide)
  · rw [loaded]
    exact reachable.origin_counter

/-- A reachable machine is saved, and its bytes are accepted exactly when the address behind memory
is not on its stack. The restored machine is then in the same state. On a source with the same
bytes ahead and a sink that answers alike it passes through the same states with the same outcomes,
and what it writes to an empty sink is what the original goes on to write. -/
theorem Reachable.resumes {origin : State} {machine : Machine σ τ}
    (reachable : Reachable origin machine) :
    ∃ bytes, machine.toState.save = .ok bytes ∧
      ∀ {σ' τ' : Type} [ByteSource σ'] [ByteSink τ'] (source : σ') (sink : τ') (tracing : Bool),
        (.ofNat memorySize ∈ machine.stack → ∃ index,
          Machine.ofSnapshot bytes source sink tracing = .error (.snapshotStack index memorySize
            (Snapshot.headerSize + index * Snapshot.cellSize))) ∧
        (.ofNat memorySize ∉ machine.stack → ∃ restored,
          Machine.ofSnapshot bytes source sink tracing = .ok restored ∧
          restored.toState = machine.toState ∧ restored.source = source ∧ restored.sink = sink ∧
          (ByteSource.Alike machine.source source → ByteSink.Alike machine.sink sink → ∀ count,
            (restored.after count).toState = (machine.after count).toState ∧
            (restored.after count).step.2 = (machine.after count).step.2 ∧
            ∀ (record : ByteSink.Record τ) (fresh : ByteSink.Record τ'),
              fresh.delivered sink = [] →
              record.delivered (machine.after count).sink =
                record.delivered machine.sink ++ fresh.delivered (restored.after count).sink)) := by
  obtain ⟨bytes, saved, accepted, rejected⟩ := reachable.savable.decode_save
  refine ⟨bytes, saved, ?_⟩
  intro σ' τ' _ _ source sink tracing
  constructor
  · intro present
    obtain ⟨index, _, failed⟩ := rejected present
    exact ⟨index, by rw [Machine.ofSnapshot, failed]; rfl⟩
  · intro absent
    have restored := Machine.ofSnapshot_of_decode (accepted absent) source sink tracing
    refine ⟨_, restored, rfl, rfl, rfl, ?_⟩
    intro sources sinks count
    have alike : machine.Alike (.ofState machine.toState source sink tracing) :=
      ⟨rfl, sources, sinks⟩
    obtain ⟨related, bytes, written, left⟩ := alike.after count
    refine ⟨related.state.symm, related.step.1.symm, ?_⟩
    intro record fresh empty
    have same : fresh.delivered
        ((Machine.ofState machine.toState source sink tracing).after count).sink = bytes := by
      rw [left fresh]
      simp only [Machine.ofState, empty, List.nil_append]
    rw [written record, same]

theorem Reachable.resumes_lastCall :
    ∃ bytes restored, Machine.lastCall.toState.save = .ok bytes ∧
      Machine.ofSnapshot bytes BufferedInput.empty BufferedOutput.empty false = .ok restored ∧
      restored.toState = Machine.lastCall.toState ∧
      ∀ count, (restored.after count).toState = (Machine.lastCall.after count).toState := by
  obtain ⟨bytes, saved, restores⟩ := Reachable.resumes reachable_lastCall
  obtain ⟨_, accepted⟩ := restores BufferedInput.empty BufferedOutput.empty false
  obtain ⟨restored, loaded, same, _, _, follows⟩ := accepted List.not_mem_nil
  refine ⟨bytes, restored, saved, loaded, same, ?_⟩
  intro count
  exact (follows ((BufferedInput.alike_iff _ _).mpr rfl) (BufferedOutput.alike _ _) count).1

/-- Behind the `call` in the last two cells the machine is reachable, and its own snapshot is
rejected. -/
theorem Reachable.snapshot_rejected_lastCall :
    Reachable .lastCall Machine.lastCall.step.1 ∧
      ∃ bytes, Machine.lastCall.step.1.toState.save = .ok bytes ∧
        Machine.ofSnapshot bytes BufferedInput.empty BufferedOutput.empty false =
          .error (.snapshotStack 0 32768 131112) := by
  have reachable := Reachable.step reachable_lastCall
  have stack : Machine.lastCall.step.1.stack = [.ofNat memorySize] :=
    congrArg State.stack Machine.toState_step_lastCall
  obtain ⟨bytes, saved, _, rejected⟩ := reachable.savable.decode_save
  obtain ⟨index, found, failed⟩ := rejected (by rw [stack]; exact List.mem_cons_self)
  obtain rfl : index = 0 := by
    rw [stack] at found
    cases index with
    | zero => rfl
    | succ index => cases found
  refine ⟨reachable, bytes, saved, ?_⟩
  rw [Machine.ofSnapshot, failed]
  rfl

end AdventureMachine
