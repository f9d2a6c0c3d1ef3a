import AdventureMachine.Proofs.Reachability

/-! Steps that do not commit. They leave memory, registers, stack, program counter, step count and
the output alone and take nothing but carriage returns off the input. So on transports in memory
they come back with the same outcome until something they depend on is changed. -/
namespace AdventureMachine

variable {σ τ : Type}

namespace BufferedInput

theorem readByte_ne_error (input : BufferedInput) (error : Error) :
    (ByteSource.readByte input).1 ≠ .error error := by
  intro failed
  cases held : input.upcoming with
  | nil => rw [readByte_of_nil held] at failed; cases failed
  | cons byte rest => rw [(readByte_of_cons held).1] at failed; cases failed

/-- Queued input reports no failure. -/
theorem readVisible_ne_error (input : BufferedInput) (error : Error) :
    (ByteSource.readVisible input).1 ≠ .error error := by
  intro failed
  obtain ⟨_, _, middle, _, last⟩ := ByteSource.readVisible_answers input
  exact middle.readByte_ne_error error (by rw [last]; exact failed)

/-- Queued input that is exhausted holds nothing any more. -/
theorem upcoming_of_exhausted {input rest : BufferedInput}
    (exhausted : ByteSource.readVisible input = (.ok none, rest)) : rest.upcoming = [] := by
  obtain ⟨_, _, middle, _, last⟩ := ByteSource.readVisible_eq_iff.mp exhausted
  cases held : middle.upcoming with
  | nil =>
    rw [readByte_of_nil held] at last
    cases last
    exact held
  | cons byte others =>
    rw [(readByte_of_cons held).1] at last
    cases last

theorem readVisible_of_nil {input : BufferedInput} (held : input.upcoming = []) :
    ByteSource.readVisible input = (.ok none, input) := by
  rw [ByteSource.readVisible_of_ne (by rw [readByte_of_nil held]; simp), readByte_of_nil held]

theorem upcoming_append_nil (input : BufferedInput) :
    (input.append []).upcoming = input.upcoming := by
  simp only [upcoming, append, ByteBuffer.toList_append, List.append_nil]

end BufferedInput

namespace Machine

section Outcome

variable [ByteSource σ] [ByteSink τ]

/-- What a step that did not commit leaves behind. -/
structure Rests (machine : Machine σ τ) (result : Machine σ τ × Outcome) : Prop where
  state : result.1.toState = machine.toState
  steps : result.1.steps = machine.steps
  fault : ∀ error, result.2 = .error error → result.1.lastHalt = machine.lastHalt
  halt : ∀ reason, result.2 = .ok (some reason) → result.1.lastHalt = some reason
  /-- Nothing is seen of the step on the sink, unless a refused byte can be seen there. -/
  sink : ∀ {α : Type} (seen : τ → α),
    (∀ {sink byte error rest}, ByteSink.writeByte sink byte = (.error error, rest) →
      seen rest = seen sink) → seen result.1.sink = seen machine.sink
  /-- Only an `in` with a destination reads, and it reads carriage returns. -/
  source : result.1.source = machine.source ∨
    ∃ a next register answer, machine.toState.fetch = .ok (.input a, next) ∧
      Operand.wordDestination a = .ok register ∧ (∀ byte, answer ≠ .ok (some byte)) ∧
      ByteSource.Answers machine.source answer result.1.source
  /-- So the source still holds what it held behind some carriage returns. -/
  content : ∀ content : ByteSource.Content σ, ∃ count, content.upcoming machine.source =
    List.replicate count ByteSource.carriageReturn ++ content.upcoming result.1.source

/-- An answer without a byte comes behind carriage returns and takes nothing else. -/
theorem upcoming_of_answers {source rest : σ} {answer : Except Error (Option UInt8)}
    (answers : ByteSource.Answers source answer rest) (absent : ∀ byte, answer ≠ .ok (some byte))
    (content : ByteSource.Content σ) :
    ∃ count, content.upcoming source =
      List.replicate count ByteSource.carriageReturn ++ content.upcoming rest := by
  obtain ⟨_, count, middle, skips, last⟩ := answers
  refine ⟨count, ?_⟩
  rw [skips.upcoming content, content.kept last absent]

theorem Stops.rests {machine : Machine σ τ} {result : Machine σ τ × Outcome}
    (stops : Stops machine result) : Rests machine result := by
  cases stops with
  | fetch failed =>
    exact ⟨rfl, rfl, fun _ _ => rfl, nofun, fun _ _ => rfl, .inl rfl, fun _ => ⟨0, rfl⟩⟩
  | check fetched failed =>
    exact ⟨rfl, rfl, fun _ _ => rfl, nofun, fun _ _ => rfl, .inl rfl, fun _ => ⟨0, rfl⟩⟩
  | refused fetched answer =>
    exact ⟨rfl, rfl, fun _ _ => rfl, nofun, fun _ unseen => unseen answer, .inl rfl,
      fun _ => ⟨0, rfl⟩⟩
  | @unread a next register error rest fetched named answer =>
    have answers := ByteSource.readVisible_eq_iff.mp answer
    exact ⟨rfl, rfl, fun _ _ => rfl, nofun, fun _ _ => rfl,
      .inr ⟨a, next, register, .error error, fetched, named, nofun, answers⟩,
      upcoming_of_answers answers nofun⟩
  | @exhausted a next register rest fetched named answer =>
    have answers := ByteSource.readVisible_eq_iff.mp answer
    exact ⟨rfl, rfl, nofun, fun _ same => Except.ok.inj same, fun _ _ => rfl,
      .inr ⟨a, next, register, .ok none, fetched, named, nofun, answers⟩,
      upcoming_of_answers answers nofun⟩
  | halted fetched =>
    exact ⟨rfl, rfl, nofun, fun _ same => Except.ok.inj same, fun _ _ => rfl, .inl rfl,
      fun _ => ⟨0, rfl⟩⟩
  | returned fetched empty =>
    exact ⟨rfl, rfl, nofun, fun _ same => Except.ok.inj same, fun _ _ => rfl, .inl rfl,
      fun _ => ⟨0, rfl⟩⟩

/-- The outcome that a state decides by itself, whatever the transports are. -/
def verdict? (state : State) : Option Outcome :=
  match state.fetch with
  | .error error => some (.error error)
  | .ok (instruction, _) =>
    match state.plan instruction with
    | .error error => some (.error error)
    | .ok (.stop reason) => some (.ok (some reason))
    | .ok _ => none

theorem verdict?_of_halt {state : State} {next : Nat} (fetched : state.fetch = .ok (.halt, next)) :
    verdict? state = some (.ok (some .haltOpcode)) := by
  simp only [verdict?, fetched, State.plan]

/-- A state that decides the outcome is still there after the step. -/
theorem step_of_verdict (machine : Machine σ τ) {outcome : Outcome}
    (decided : verdict? machine.toState = some outcome) :
    machine.step.2 = outcome ∧ machine.step.1.toState = machine.toState := by
  unfold verdict? at decided
  rcases machine.step_cases with
    ⟨error, same, failed | ⟨instruction, next, fetched, failed⟩⟩ |
      ⟨instruction, next, action, fetched, planned, same⟩
  · rw [failed] at decided
    cases decided
    rw [same]
    exact ⟨rfl, rfl⟩
  · simp only [fetched, failed] at decided
    cases decided
    rw [same]
    exact ⟨rfl, rfl⟩
  · simp only [fetched, planned] at decided
    rw [same]
    split at decided
    · rename_i impossible
      cases impossible
    · rename_i reason stop
      cases stop
      cases decided
      exact ⟨rfl, rfl⟩
    · cases decided

/-- An `in` with a destination halts when its source is exhausted. -/
theorem step_of_exhausted (machine : Machine σ τ) {a : UInt16} {next : Nat}
    {register : Fin registerCount} {rest : σ}
    (fetched : machine.toState.fetch = .ok (.input a, next))
    (named : Operand.wordDestination a = .ok register)
    (answer : ByteSource.readVisible machine.source = (.ok none, rest)) :
    machine.step = halt { machine with source := rest } .inputExhausted := by
  have planned : machine.toState.plan (.input a) = .ok (.receive register) := by
    simp only [State.plan, named]
    rfl
  rw [step_of_plan fetched planned, perform, answer]

end Outcome

section Buffered

variable {machine : Machine BufferedInput BufferedOutput}

/-- On transports in memory a step stops by the state alone, or waits for input. -/
theorem Stops.verdict_or_waits {result : Machine BufferedInput BufferedOutput × Outcome}
    (stops : Stops machine result) :
    verdict? machine.toState = some result.2 ∨
      ∃ a next register, machine.toState.fetch = .ok (.input a, next) ∧
        Operand.wordDestination a = .ok register ∧ result.1.source.upcoming = [] ∧
        result.2 = .ok (some .inputExhausted) := by
  cases stops with
  | fetch failed => exact .inl (by simp only [verdict?, failed])
  | check fetched failed => exact .inl (by simp only [verdict?, fetched, failed])
  | refused fetched answer => cases answer
  | unread fetched named answer =>
    exact absurd (by rw [answer]) (machine.source.readVisible_ne_error _)
  | exhausted fetched named answer =>
    exact .inr ⟨_, _, _, fetched, named, BufferedInput.upcoming_of_exhausted answer, rfl⟩
  | halted fetched => exact .inl (verdict?_of_halt fetched)
  | returned fetched empty => exact .inl (by simp only [verdict?, fetched, State.plan, empty, halt])

/-- The outcomes of further steps. In front of each, bytes are appended to the input and the output
is handled from outside in some way. -/
def revisits (machine : Machine BufferedInput BufferedOutput) :
    List (Bytes × (BufferedOutput → BufferedOutput)) → List Outcome
  | [] => []
  | (chunk, handle) :: rest =>
    let result := (machine.rewire (machine.source.append chunk) (handle machine.sink)).step
    result.2 :: result.1.revisits rest

theorem revisits_of_verdict {outcome : Outcome}
    (decided : verdict? machine.toState = some outcome)
    (visits : List (Bytes × (BufferedOutput → BufferedOutput))) :
    ∀ other ∈ machine.revisits visits, other = outcome := by
  induction visits generalizing machine with
  | nil => exact nofun
  | cons visit rest ih =>
    obtain ⟨chunk, handle⟩ := visit
    obtain ⟨first, kept⟩ := step_of_verdict
      (machine.rewire (machine.source.append chunk) (handle machine.sink)) decided
    intro other member
    rcases List.mem_cons.mp member with same | later
    · rw [same, first]
    · exact ih (by rw [kept]; exact decided) other later

theorem revisits_of_waiting {a : UInt16} {next : Nat} {register : Fin registerCount}
    (fetched : machine.toState.fetch = .ok (.input a, next))
    (named : Operand.wordDestination a = .ok register) (held : machine.source.upcoming = [])
    (visits : List (Bytes × (BufferedOutput → BufferedOutput)))
    (silent : ∀ visit ∈ visits, visit.1 = []) :
    ∀ other ∈ machine.revisits visits, other = .ok (some .inputExhausted) := by
  induction visits generalizing machine with
  | nil => exact nofun
  | cons visit rest ih =>
    obtain ⟨chunk, handle⟩ := visit
    obtain rfl : chunk = [] := silent (chunk, handle) (by simp)
    have empty : (machine.source.append []).upcoming = [] := by
      rw [BufferedInput.upcoming_append_nil, held]
    have halts := step_of_exhausted
      (machine.rewire (machine.source.append []) (handle machine.sink)) fetched named
      (BufferedInput.readVisible_of_nil empty)
    intro other member
    simp only [revisits, halts] at member
    rcases List.mem_cons.mp member with same | later
    · exact same
    · refine ih ?_ ?_ ?_ other later
      · exact fetched
      · exact empty
      · exact fun visit present => silent visit (by simp [present])

end Buffered

end Machine

/-- A step of a reachable machine that faults or halts leaves everything in place but carriage
returns in front of the input and, on a halt, its reason. On transports in memory every further
step has the same outcome while no input is appended, however the output is handled; behind a `halt`
or a return from the empty stack even appended input makes no difference. -/
theorem Reachable.step_rests :
    (∀ {σ τ : Type} [ByteSource σ] [ByteSink τ] {origin : State} {machine : Machine σ τ},
      Reachable origin machine → machine.step.2 ≠ .ok none → machine.Rests machine.step) ∧
    ∀ {origin : State} {machine : Machine BufferedInput BufferedOutput},
      Reachable origin machine → machine.step.2 ≠ .ok none →
      ∀ visits : List (Bytes × (BufferedOutput → BufferedOutput)),
        (∀ visit ∈ visits, visit.1 = []) ∨ machine.step.2 = .ok (some .haltOpcode) ∨
          machine.step.2 = .ok (some .emptyReturn) →
        ∀ outcome ∈ machine.step.1.revisits visits, outcome = machine.step.2 := by
  refine ⟨fun reachable stopped => (Machine.step_stops reachable.sound.toBounded stopped).rests, ?_⟩
  intro origin machine reachable stopped visits undisturbed
  have stops := Machine.step_stops reachable.sound.toBounded stopped
  have kept := stops.rests.state
  rcases stops.verdict_or_waits with decided | ⟨a, next, register, fetched, named, held, exhausted⟩
  · exact Machine.revisits_of_verdict (by rw [kept]; exact decided) visits
  · rcases undisturbed with silent | halted | returned
    · rw [exhausted]
      exact Machine.revisits_of_waiting (by rw [kept]; exact fetched) named held visits silent
    · rw [halted] at exhausted
      cases exhausted
    · rw [returned] at exhausted
      cases exhausted

theorem Reachable.step_rests_lastCall :
    Machine.lastCall.step.1.step.2 = .ok (some .haltOpcode) ∧
      Machine.lastCall.step.1.Rests Machine.lastCall.step.1.step ∧
      ∀ visits, ∀ outcome ∈ Machine.lastCall.step.1.step.1.revisits visits,
        outcome = .ok (some .haltOpcode) := by
  have reachable := Reachable.step reachable_lastCall
  have fetches : Machine.lastCall.step.1.toState.Fetches .halt 0 := by
    rw [Machine.toState_step_lastCall]
    exact ⟨rfl, by decide, congrArg UInt16.toNat (State.lastCall_word 0)⟩
  have halts : Machine.lastCall.step.1.step.2 = .ok (some .haltOpcode) :=
    (Machine.step_of_verdict _ (Machine.verdict?_of_halt fetches.fetch_eq)).1
  have stopped : Machine.lastCall.step.1.step.2 ≠ .ok none := by rw [halts]; simp
  refine ⟨halts, Reachable.step_rests.1 reachable stopped, ?_⟩
  intro visits
  rw [← halts]
  exact Reachable.step_rests.2 reachable stopped visits (.inr (.inl halts))

end AdventureMachine
