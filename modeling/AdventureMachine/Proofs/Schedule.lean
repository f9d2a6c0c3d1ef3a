import AdventureMachine.Proofs.Progress

/-! Schedules: appending input, stepping and running in any order. A machine that gets its input
piece by piece trails the machine that had all of it from the start. Each step that commits on the
one commits on the other with the same effect, and a step that does not commit loses nothing but
carriage returns. -/
namespace AdventureMachine

/-- What a driver does with a machine on transports in memory. -/
inductive Operation where
  | append (chunk : Bytes)
  | step
  | run (budget : Nat)

namespace Machine

/-- The machine with more input behind what it has. -/
def feed (machine : Machine BufferedInput BufferedOutput) (chunk : Bytes) :
    Machine BufferedInput BufferedOutput :=
  { machine with source := machine.source.append chunk }

@[simp]
theorem toState_feed (machine : Machine BufferedInput BufferedOutput) (chunk : Bytes) :
    (machine.feed chunk).toState = machine.toState := rfl

end Machine

namespace Operation

variable (machine : Machine BufferedInput BufferedOutput)

/-- The input that an operation adds. -/
def chunk : Operation → Bytes
  | append chunk => chunk
  | step | run _ => []

/-- The machine behind an operation. -/
def result : Operation → Machine BufferedInput BufferedOutput
  | append chunk => machine.feed chunk
  | step => machine.step.1
  | run budget => (machine.run budget).value.machine

/-- How many steps an operation commits. -/
def committed : Operation → Nat
  | append _ => 0
  | step => machine.streak 1
  | run budget => machine.streak budget

end Operation

namespace Machine

/-- The machine behind a schedule. -/
def drive (machine : Machine BufferedInput BufferedOutput) :
    List Operation → Machine BufferedInput BufferedOutput
  | [] => machine
  | operation :: rest => (operation.result machine).drive rest

/-- How many steps a schedule commits in total. -/
def committedIn (machine : Machine BufferedInput BufferedOutput) : List Operation → Nat
  | [] => 0
  | operation :: rest =>
    operation.committed machine + (operation.result machine).committedIn rest

/-- One machine trails another: it is in the same state and wrote the same bytes, and with `pending`
appended it would see the same input. -/
structure Trails (pending : Bytes) (early late : Machine BufferedInput BufferedOutput) : Prop where
  state : early.toState = late.toState
  source : (early.source.append pending).visible = late.source.visible
  sink : early.sink.bytes = late.sink.bytes

variable {pending : Bytes} {early late next : Machine BufferedInput BufferedOutput}

theorem Trails.perform (trails : Trails pending early late) (address : Nat) {action : Action}
    (committed : (early.perform address action).2 = .ok none) :
    (late.perform address action).2 = .ok none ∧
      Trails pending (early.perform address action).1 (late.perform address action).1 := by
  obtain ⟨state, source, sink, steps, lastHalt, tracing⟩ := early
  obtain ⟨state', source', sink', steps', lastHalt', tracing'⟩ := late
  obtain ⟨same, sources, sinks⟩ := trails
  obtain rfl : state = state' := same
  -- Only an `in` reads the sources, and it sees the same byte in both of them.
  cases action with
  | receive register =>
    obtain ⟨answer, taken⟩ := source.readVisible_visible
    rcases found : ByteSource.readVisible source with ⟨answered, rest⟩
    rw [found] at answer taken
    rcases answered with error | _ | byte
    · simp only [Machine.perform, found] at committed
      cases committed
    · simp only [Machine.perform, found, halt] at committed
      cases committed
    · have head : source.visible.head? = some byte := (Except.ok.inj answer).symm
      have seen : source'.visible = byte :: (rest.append pending).visible := by
        have both := (taken pending).symm.trans sources
        rw [head] at both
        exact both.symm
      obtain ⟨rest', found', left⟩ := BufferedInput.readVisible_of_visible_cons seen
      simp only [Machine.perform, found, found', commit]
      exact ⟨trivial, rfl, left.symm, sinks⟩
  | emit byte =>
    refine ⟨rfl, rfl, sources, ?_⟩
    have grown (output : BufferedOutput) : (output.write byte).bytes = output.bytes ++ [byte] :=
      BufferedOutput.record.accepted rfl
    calc (sink.write byte).bytes = sink.bytes ++ [byte] := grown sink
      _ = sink'.bytes ++ [byte] := congrArg (· ++ [byte]) sinks
      _ = (sink'.write byte).bytes := (grown sink').symm
  | drop error => cases committed
  | stop reason => cases committed
  | advance => exact ⟨rfl, rfl, sources, sinks⟩
  | assign register value => exact ⟨rfl, rfl, sources, sinks⟩
  | write address value => exact ⟨rfl, rfl, sources, sinks⟩
  | push value => exact ⟨rfl, rfl, sources, sinks⟩
  | pop register value => exact ⟨rfl, rfl, sources, sinks⟩
  | jump target => exact ⟨rfl, rfl, sources, sinks⟩
  | call target => exact ⟨rfl, rfl, sources, sinks⟩
  | ret target => exact ⟨rfl, rfl, sources, sinks⟩

/-- A step that commits on the trailing machine commits on the other one as well. -/
theorem Trails.step (trails : Trails pending early late)
    (committed : early.step = (next, .ok none)) :
    ∃ after, late.step = (after, .ok none) ∧ Trails pending next after := by
  rcases early.step_cases with
    ⟨error, stopped, _⟩ | ⟨instruction, address, action, fetched, planned, performed⟩
  · rw [stopped] at committed
    cases committed
  · have performed' : late.step = late.perform address action := by
      rw [trails.state] at fetched planned
      exact step_of_plan fetched planned
    rw [performed] at committed
    obtain ⟨also, related⟩ := trails.perform address (by rw [committed])
    rw [committed] at related
    exact ⟨_, by rw [performed']; exact Prod.ext rfl also, related⟩

theorem Trails.commits {count : Nat} (trails : Trails pending early late)
    (commits : Commits count early next) :
    ∃ after, Commits count late after ∧ Trails pending next after := by
  induction commits generalizing late with
  | stay _ => exact ⟨late, .stay late, trails⟩
  | step committed _ ih =>
    obtain ⟨middle, stepped, related⟩ := trails.step committed
    obtain ⟨after, rest, final⟩ := ih related
    exact ⟨after, .step stepped rest, final⟩

/-- A step that does not commit takes only bytes that no guest sees, so the machine still trails. -/
theorem Trails.stopped (trails : Trails pending early late) (bounded : early.toState.Bounded)
    (stopped : early.step.2 ≠ .ok none) : Trails pending early.step.1 late := by
  have stops := step_stops bounded stopped
  have rests := stops.rests
  refine ⟨rests.state.trans trails.state, ?_, ?_⟩
  · rw [← trails.source]
    generalize early.step = result at stops
    cases stops with
    | fetch failed => rfl
    | check fetched failed => rfl
    | refused fetched answer => cases answer
    | unread fetched named answer =>
      exact absurd (by rw [answer]) (early.source.readVisible_ne_error _)
    | exhausted fetched named answer =>
      have taken := early.source.readVisible_append pending
      rw [answer] at taken
      exact taken.symm
    | halted fetched => rfl
    | returned fetched empty => rfl
  · rw [← trails.sink]
    exact rests.sink BufferedOutput.bytes nofun

theorem Trails.feed (trails : Trails (chunk ++ pending) early late) :
    Trails pending (early.feed chunk) late :=
  ⟨trails.state, by rw [← trails.source]; exact early.source.visible_append_append chunk pending,
    trails.sink⟩

theorem trails_feed (machine : Machine BufferedInput BufferedOutput) (chunk : Bytes) :
    Trails chunk machine (machine.feed chunk) := ⟨rfl, rfl, rfl⟩

theorem Sound.feed {origin : State} {machine : Machine BufferedInput BufferedOutput}
    (sound : Sound origin machine) (chunk : Bytes) : Sound origin (machine.feed chunk) :=
  ⟨sound.toBounded, sound.counter, sound.cells⟩

theorem Sound.commits {origin : State} {machine last : Machine BufferedInput BufferedOutput}
    {count : Nat} (sound : Sound origin machine) (commits : Commits count machine last) :
    Sound origin last := by
  induction commits with
  | stay _ => exact sound
  | step committed _ ih =>
    have stepped := sound.step
    rw [committed] at stepped
    exact ih stepped

/-- A single step is a run with a budget of one. -/
theorem step_eq_run (machine : Machine BufferedInput BufferedOutput) :
    machine.step.1 = (machine.run 1).value.machine := by
  rcases stepped : machine.step with ⟨next, _ | _ | reason⟩ <;>
    simp only [run, runFrom, stepped]

/-- What a run does to a machine that trails another: the other one commits as many steps, and the
machine trails it again and has counted them. -/
theorem Trails.run {origin : State} (trails : Trails pending early late)
    (sound : Sound origin early)
    (budget : Nat) :
    ∃ after, Commits (early.streak budget) late after ∧
      Trails pending (early.run budget).value.machine after ∧
      Sound origin (early.run budget).value.machine ∧
      (early.run budget).value.machine.steps = early.steps + early.streak budget := by
  obtain ⟨_, middle, commits, ends⟩ := early.run_commits budget
  obtain ⟨after, followed, related⟩ := trails.commits commits
  have kept := sound.commits commits
  refine ⟨after, followed, ?_⟩
  rcases ends with ⟨_, reached, _⟩ | ⟨_, stopped, reached, _⟩
  · rw [reached]
    exact ⟨related, kept, commits.steps⟩
  · have rests := (step_stops kept.toBounded stopped).rests
    rw [reached, rests.steps]
    exact ⟨related.stopped kept.toBounded stopped, kept.step, commits.steps⟩

theorem Trails.result {origin : State} {operation : Operation}
    (trails : Trails (operation.chunk ++ pending) early late) (sound : Sound origin early) :
    ∃ after, Commits (operation.committed early) late after ∧
      Trails pending (operation.result early) after ∧ Sound origin (operation.result early) ∧
      (operation.result early).steps = early.steps + operation.committed early := by
  cases operation with
  | append chunk => exact ⟨late, .stay late, trails.feed, sound.feed chunk, rfl⟩
  | step =>
    simp only [Operation.result, step_eq_run]
    exact Trails.run trails sound 1
  | run budget => exact Trails.run trails sound budget

/-- A machine that trails another before a schedule trails it behind the schedule as well. -/
theorem Trails.drive {origin : State} {operations : List Operation}
    (trails : Trails (operations.flatMap Operation.chunk) early late)
    (sound : Sound origin early) :
    ∃ after, Commits (early.committedIn operations) late after ∧
      Trails [] (early.drive operations) after ∧
      (early.drive operations).steps = early.steps + early.committedIn operations := by
  induction operations generalizing early late with
  | nil => exact ⟨late, .stay late, trails, rfl⟩
  | cons operation rest ih =>
    rw [List.flatMap_cons] at trails
    obtain ⟨middle, first, related, kept, counted⟩ := trails.result sound
    obtain ⟨after, second, final, total⟩ := ih related kept
    have whole := first.trans second
    rw [Nat.add_comm] at whole
    exact ⟨after, whole, final, by rw [drive, total, counted, committedIn, Nat.add_assoc]⟩

end Machine

/-- However input is appended and steps are taken or run in between, a reachable machine on
transports in memory is where the same machine gets by as many committed steps with all the input
appended in front of them. Its count of steps grew by just as many, and a run that does not fault
answers with the steps it committed. -/
theorem Reachable.schedule_independent {origin : State}
    {machine : Machine BufferedInput BufferedOutput} (reachable : Reachable origin machine)
    (operations : List Operation) :
    (∃ whole, Machine.Commits (machine.committedIn operations)
        (machine.feed (operations.flatMap Operation.chunk)) whole ∧
      (machine.drive operations).memory = whole.memory ∧
      (machine.drive operations).registers = whole.registers ∧
      (machine.drive operations).stack = whole.stack ∧
      (machine.drive operations).pc = whole.pc ∧
      (machine.drive operations).sink.bytes = whole.sink.bytes) ∧
    (machine.drive operations).steps = machine.steps + machine.committedIn operations ∧
    ∀ before budget after, operations = before ++ .run budget :: after →
      ∀ halt, ((machine.drive before).run budget).value.outcome = .ok halt →
        ((machine.drive before).run budget).value.steps =
          (Operation.run budget).committed (machine.drive before) := by
  have trails := machine.trails_feed (operations.flatMap Operation.chunk)
  obtain ⟨whole, commits, final, total⟩ := trails.drive reachable.sound
  refine ⟨⟨whole, commits, ?_⟩, total, ?_⟩
  · have state := final.state
    exact ⟨congrArg State.memory state, congrArg State.registers state, congrArg State.stack state,
      congrArg State.pc state, final.sink⟩
  · intro before budget _ _ _ _
    exact ((machine.drive before).run_commits budget).1

/-- A step that commits, appended input, and a run that halts at once. -/
def Operation.lastCall : List Operation := [.step, .append [97, 13], .run 5]

theorem Machine.committedIn_resume (machine : Machine BufferedInput BufferedOutput) (chunk : Bytes)
    (budget : Nat) : machine.committedIn [.step, .append chunk, .run budget] =
      machine.streak 1 + (machine.step.1.feed chunk).streak budget := by
  simp only [committedIn, Operation.committed, Operation.result, Nat.add_zero, Nat.zero_add]

theorem Machine.committedIn_lastCall : lastCall.committedIn Operation.lastCall = 1 := by
  have committed : lastCall.step.2 = .ok none := by rw [step_lastCall]; rfl
  have first : lastCall.streak 1 = 1 := streak_of_committed committed 0
  have halts : verdict? (lastCall.step.1.feed [97, 13]).toState = some (.ok (some .haltOpcode)) := by
    have fetches : lastCall.step.1.toState.Fetches .halt 0 := by
      rw [toState_step_lastCall]
      exact ⟨rfl, by decide, congrArg UInt16.toNat (State.lastCall_word 0)⟩
    rw [toState_feed]
    exact verdict?_of_halt fetches.fetch_eq
  have stopped := (step_of_verdict _ halts).1
  have second : (lastCall.step.1.feed [97, 13]).streak 5 = 0 :=
    (Commits.stay _).streak_eq (by rw [stopped]; simp) (by decide)
  rw [Operation.lastCall, committedIn_resume, first, second]

theorem Reachable.schedule_independent_lastCall :
    Machine.lastCall.committedIn Operation.lastCall = 1 ∧
      (Machine.lastCall.drive Operation.lastCall).steps = 1 ∧
      ∃ whole, Machine.Commits 1 (Machine.lastCall.feed [97, 13]) whole ∧
        (Machine.lastCall.drive Operation.lastCall).stack = whole.stack ∧
        (Machine.lastCall.drive Operation.lastCall).pc = whole.pc := by
  have counted := Machine.committedIn_lastCall
  obtain ⟨⟨whole, commits, _, _, stack, pc, _⟩, total, _⟩ :=
    Reachable.schedule_independent reachable_lastCall Operation.lastCall
  have fresh : Machine.lastCall.steps = 0 := rfl
  rw [counted] at commits total
  rw [fresh] at total
  exact ⟨counted, total, whole, commits, stack, pc⟩

end AdventureMachine
