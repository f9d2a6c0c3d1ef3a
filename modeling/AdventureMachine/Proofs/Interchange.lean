import AdventureMachine.Transport.Terminal
import AdventureMachine.Proofs.Progress
import AdventureMachine.Proofs.Resume

/-! Transports that answer alike can be exchanged. Retried failures of a descriptor never show in
an answer, so a terminal delivers its bytes as queued input does. The bytes that a machine writes
are decided by the states it passes through, and sinks differ only in what they keep of them. -/
namespace AdventureMachine

variable {σ τ σ' τ' : Type}

namespace ByteSink

variable [ByteSink τ]

/-- The sink behind a sequence of writes, whatever it answered. -/
def behind (sink : τ) (bytes : Bytes) : τ :=
  bytes.foldl (fun sink byte => (writeByte sink byte).2) sink

theorem behind_cons (sink : τ) (byte : UInt8) (more : Bytes) :
    behind sink (byte :: more) = behind (writeByte sink byte).2 more := rfl

theorem behind_append (sink : τ) (first second : Bytes) :
    behind sink (first ++ second) = behind (behind sink first) second :=
  List.foldl_append

/-- A sink that never fails. -/
def Accepts (sink : τ) : Prop := ∀ earlier byte, answerTo sink earlier byte = .ok ()

theorem Accepts.rest {sink : τ} (accepts : Accepts sink) (byte : UInt8) :
    Accepts (writeByte sink byte).2 := fun earlier last => accepts (byte :: earlier) last

theorem Accepts.alike [ByteSink τ'] {sink : τ} {other : τ'} (accepts : Accepts sink)
    (accepted : Accepts other) : Alike sink other := by
  intro earlier byte
  rw [accepts, accepted]

/-- A sink that never fails was given all bytes in their order. -/
theorem Accepts.delivered_behind {sink : τ} (accepts : Accepts sink) (record : Record τ)
    (bytes : Bytes) : record.delivered (behind sink bytes) = record.delivered sink ++ bytes := by
  induction bytes generalizing sink with
  | nil => exact (List.append_nil _).symm
  | cons byte more ih =>
    have first : record.delivered (writeByte sink byte).2 = record.delivered sink ++ [byte] :=
      record.accepted (Prod.ext (accepts [] byte) rfl)
    rw [behind_cons, ih (accepts.rest byte), first, List.append_assoc, List.singleton_append]

end ByteSink

/-- The bytes that a step from the state tries to write. -/
def State.emits (state : State) : Bytes :=
  match state.fetch with
  | .error _ => []
  | .ok (instruction, _) =>
    match state.plan instruction with
    | .ok (.emit byte) => [byte]
    | _ => []

/-- Whether a step from the state tries to read. -/
def State.listens (state : State) : Bool :=
  match state.fetch with
  | .error _ => false
  | .ok (instruction, _) =>
    match state.plan instruction with
    | .ok (.receive _) => true
    | _ => false

namespace Machine

/-- How many steps an outcome stands for. -/
def Outcome.counted : Outcome → Nat
  | .ok none => 1
  | _ => 0

/-- The latest halt behind an outcome; a fault leaves the earlier one. -/
def Outcome.remembered (earlier : Option HaltReason) : Outcome → Option HaltReason
  | .ok reason => reason
  | .error _ => earlier

section Emission

variable [ByteSource σ] [ByteSink τ]

/-- What a step does outside the state: it may read from the source, gives bytes to the sink and
keeps the counters. -/
structure Records (machine : Machine σ τ) (reads : Bool) (bytes : Bytes)
    (result : Machine σ τ × Outcome) : Prop where
  source : result.1.source =
    if reads then (ByteSource.readVisible machine.source).2 else machine.source
  sink : result.1.sink = ByteSink.behind machine.sink bytes
  steps : result.1.steps = machine.steps + result.2.counted
  lastHalt : result.1.lastHalt = result.2.remembered machine.lastHalt
  tracing : result.1.tracing = machine.tracing

/-- The state alone decides whether a step reads and which bytes it writes. -/
theorem records_step (machine : Machine σ τ) :
    Records machine machine.toState.listens machine.toState.emits machine.step := by
  rcases machine.step_cases with
    ⟨error, stopped, failed | ⟨instruction, next, fetched, failed⟩⟩ |
      ⟨instruction, next, action, fetched, planned, performed⟩
  · simp only [stopped, State.listens, State.emits, failed]
    exact ⟨rfl, rfl, rfl, rfl, rfl⟩
  · simp only [stopped, State.listens, State.emits, fetched, failed]
    exact ⟨rfl, rfl, rfl, rfl, rfl⟩
  · simp only [performed, State.listens, State.emits, fetched, planned]
    cases action with
    | emit byte =>
      rcases written : ByteSink.writeByte machine.sink byte with ⟨answer, rest⟩
      have given : rest = ByteSink.behind machine.sink [byte] := by
        rw [ByteSink.behind, List.foldl_cons, written, List.foldl_nil]
      cases answer with
      | ok accepted =>
        simp only [perform, written]
        exact ⟨rfl, given, rfl, rfl, rfl⟩
      | error error =>
        simp only [perform, written]
        exact ⟨rfl, given, rfl, rfl, rfl⟩
    | receive register =>
      rcases found : ByteSource.readVisible machine.source with ⟨_ | _ | byte, rest⟩
      · simp only [perform, found]
        exact ⟨congrArg Prod.snd found.symm, rfl, rfl, rfl, rfl⟩
      · simp only [perform, found]
        exact ⟨congrArg Prod.snd found.symm, rfl, rfl, rfl, rfl⟩
      · simp only [perform, found]
        exact ⟨congrArg Prod.snd found.symm, rfl, rfl, rfl, rfl⟩
    | advance => exact ⟨rfl, rfl, rfl, rfl, rfl⟩
    | assign register value => exact ⟨rfl, rfl, rfl, rfl, rfl⟩
    | write address value => exact ⟨rfl, rfl, rfl, rfl, rfl⟩
    | push value => exact ⟨rfl, rfl, rfl, rfl, rfl⟩
    | pop register value => exact ⟨rfl, rfl, rfl, rfl, rfl⟩
    | drop error => exact ⟨rfl, rfl, rfl, rfl, rfl⟩
    | jump target => exact ⟨rfl, rfl, rfl, rfl, rfl⟩
    | call target => exact ⟨rfl, rfl, rfl, rfl, rfl⟩
    | ret target => exact ⟨rfl, rfl, rfl, rfl, rfl⟩
    | stop reason => exact ⟨rfl, rfl, rfl, rfl, rfl⟩

/-- The bytes that a run within a budget tries to write. -/
def emitted (machine : Machine σ τ) : Nat → Bytes
  | 0 => []
  | budget + 1 =>
    match machine.step with
    | (next, .ok none) => machine.toState.emits ++ next.emitted budget
    | _ => machine.toState.emits

theorem sink_runFrom (budget : Nat) (machine : Machine σ τ) (steps : Nat)
    (journal : List Log.Record) :
    (runFrom budget machine steps journal).value.machine.sink =
      ByteSink.behind machine.sink (machine.emitted budget) := by
  induction budget generalizing machine steps journal with
  | zero => rfl
  | succ budget ih =>
    have records := machine.records_step
    rcases stepped : machine.step with ⟨next, outcome⟩
    rw [stepped] at records
    have first : next.sink = ByteSink.behind machine.sink machine.toState.emits := records.sink
    rcases outcome with error | _ | reason
    · simp only [runFrom, emitted, stepped, first]
    · simp only [runFrom, emitted, stepped, ih, ByteSink.behind_append, first]
    · simp only [runFrom, emitted, stepped, first]

end Emission

section Twins

variable [ByteSource σ] [ByteSink τ] [ByteSource σ'] [ByteSink τ']

/-- Alike machines that also agree on their counters. -/
structure Twin (machine : Machine σ τ) (other : Machine σ' τ') : Prop extends
    Alike machine other where
  steps : machine.steps = other.steps
  lastHalt : machine.lastHalt = other.lastHalt
  tracing : machine.tracing = other.tracing

theorem Twin.step {machine : Machine σ τ} {other : Machine σ' τ'} (twin : Twin machine other) :
    machine.step.2 = other.step.2 ∧ Twin machine.step.1 other.step.1 := by
  obtain ⟨outcome, kept⟩ := twin.toAlike.step
  have left := machine.records_step
  have right := other.records_step
  refine ⟨outcome, kept.alike, ?_, ?_, ?_⟩
  · rw [left.steps, right.steps, twin.steps, outcome]
  · rw [left.lastHalt, right.lastHalt, twin.lastHalt, outcome]
  · rw [left.tracing, right.tracing, twin.tracing]

theorem Twin.traceRecord?_eq {machine : Machine σ τ} {other : Machine σ' τ'}
    (twin : Twin machine other) : machine.traceRecord? = other.traceRecord? := by
  rw [traceRecord?, traceRecord?, twin.tracing, twin.state]

/-- Two runs that ended alike: by their outcome, their steps, the state and counters they left and
what they logged. -/
structure RunsAlike (run : Logged (Run σ τ)) (other : Logged (Run σ' τ')) : Prop where
  outcome : run.value.outcome = other.value.outcome
  steps : run.value.steps = other.value.steps
  state : run.value.machine.toState = other.value.machine.toState
  count : run.value.machine.steps = other.value.machine.steps
  lastHalt : run.value.machine.lastHalt = other.value.machine.lastHalt
  journal : run.journal = other.journal

/-- Twins run alike and write the same bytes. -/
theorem Twin.runFrom {machine : Machine σ τ} {other : Machine σ' τ'} (twin : Twin machine other)
    (budget steps : Nat) (journal : List Log.Record) :
    RunsAlike (runFrom budget machine steps journal) (runFrom budget other steps journal) ∧
      machine.emitted budget = other.emitted budget := by
  induction budget generalizing machine other steps journal with
  | zero => exact ⟨⟨rfl, rfl, twin.state, twin.steps, twin.lastHalt, rfl⟩, rfl⟩
  | succ budget ih =>
    obtain ⟨outcome, next⟩ := twin.step
    have traced := twin.traceRecord?_eq
    have written : machine.toState.emits = other.toState.emits := by rw [twin.state]
    rcases stepped : machine.step with ⟨after, answer⟩
    rcases stepped' : other.step with ⟨left, answer'⟩
    rw [stepped, stepped'] at outcome next
    obtain rfl : answer = answer' := outcome
    rcases answer with error | _ | reason
    · have fault : after.faultRecord error = left.faultRecord error := by
        rw [faultRecord, faultRecord, next.state]
      simp only [Machine.runFrom, emitted, stepped, stepped', traced, written, fault]
      exact ⟨⟨rfl, rfl, next.state, next.steps, next.lastHalt, rfl⟩, trivial⟩
    · simp only [Machine.runFrom, emitted, stepped, stepped', traced, written]
      obtain ⟨runs, more⟩ := ih next (steps + 1) _
      exact ⟨runs, by rw [more]⟩
    · simp only [Machine.runFrom, emitted, stepped, stepped', traced, written]
      exact ⟨⟨rfl, rfl, next.state, next.steps, next.lastHalt, rfl⟩, trivial⟩

/-- One machine on two pairs of transports that answer alike. -/
theorem twin_rewire {ρ υ : Type} (machine : Machine ρ υ) {source : σ} {sink : τ} {source' : σ'}
    {sink' : τ'} (sources : ByteSource.Alike source source') (sinks : ByteSink.Alike sink sink') :
    Twin (machine.rewire source sink) (machine.rewire source' sink') :=
  ⟨⟨rfl, sources, sinks⟩, rfl, rfl, rfl⟩

end Twins

end Machine

/-- Every failure among the answers of a descriptor is one that is tried again. -/
def Patient {α : Type} (answers : List (SystemAnswer α)) : Prop :=
  ∀ failure, .failed failure ∈ answers → failure.isRetried = true

namespace TerminalInput

/-- The answers deliver these bytes one by one, with failures that are tried again anywhere in
between; behind them the file ends. -/
inductive Delivers : List (SystemAnswer UInt8) → Bytes → Prop where
  | done : Delivers [] []
  | byte {byte : UInt8} {answers : List (SystemAnswer UInt8)} {bytes : Bytes}
      (rest : Delivers answers bytes) : Delivers (.done byte :: answers) (byte :: bytes)
  | again {failure : SystemFailure} {answers : List (SystemAnswer UInt8)} {bytes : Bytes}
      (retried : failure.isRetried = true) (rest : Delivers answers bytes) :
      Delivers (.failed failure :: answers) bytes

/-- A read passes over the failures and takes the next byte. -/
theorem Delivers.read {answers : List (SystemAnswer UInt8)} {bytes : Bytes}
    (delivers : Delivers answers bytes) (descriptor : Nat) :
    (read descriptor answers).1 = .ok bytes.head? ∧
      Delivers (read descriptor answers).2 bytes.tail := by
  induction delivers with
  | done => exact ⟨rfl, .done⟩
  | byte rest _ => exact ⟨rfl, rest⟩
  | again retried _ ih =>
    rw [TerminalInput.read, if_pos retried]
    exact ih

theorem Delivers.answerAt_eq {input : TerminalInput} {bytes : Bytes}
    (delivers : Delivers input.answers bytes) (count : Nat) :
    ByteSource.answerAt input count = .ok bytes[count]? := by
  induction count generalizing input bytes with
  | zero =>
    rw [← List.head?_eq_getElem?]
    exact (delivers.read input.descriptor).1
  | succ count ih =>
    rw [← List.getElem?_tail]
    exact ih (delivers.read input.descriptor).2

/-- A terminal answers like queued input with the bytes it delivers. -/
theorem Delivers.alike {input : TerminalInput} {bytes : Bytes}
    (delivers : Delivers input.answers bytes) :
    ByteSource.Alike input (BufferedInput.ofBytes bytes 0) := by
  intro count
  have upcoming : (BufferedInput.ofBytes bytes 0).upcoming = bytes := by
    have start : min 0 (bytes.length : Int) = 0 := by omega
    simp only [BufferedInput.upcoming, BufferedInput.ofBytes, start, Int.le_refl, ↓reduceIte,
      ByteBuffer.toList_ofList, Int.toNat_zero, List.drop_zero]
  rw [delivers.answerAt_eq, BufferedInput.answerAt_eq, upcoming]

end TerminalInput

namespace TerminalOutput

/-- A write passes over the failures and arrives. -/
theorem attempt_of_patient {answers : List (SystemAnswer Unit)} (patient : Patient answers)
    (descriptor : Nat) :
    (attempt descriptor answers).1 = .ok () ∧ Patient (attempt descriptor answers).2 := by
  induction answers with
  | nil => exact ⟨rfl, patient⟩
  | cons answer rest ih =>
    have others : Patient rest := fun failure member => patient failure (.tail _ member)
    cases answer with
    | done value => exact ⟨rfl, others⟩
    | failed failure =>
      rw [attempt, if_pos (patient failure (.head _))]
      exact ih others

theorem Patient.rest {output : TerminalOutput} (patient : Patient output.answers) (byte : UInt8) :
    (ByteSink.writeByte output byte).1 = .ok () ∧
      Patient (ByteSink.writeByte output byte).2.answers := by
  have ⟨accepted, others⟩ := attempt_of_patient patient output.descriptor
  simp only [ByteSink.writeByte, write]
  rcases attempted : attempt output.descriptor output.answers with ⟨answer, rest⟩
  rw [attempted] at accepted others
  obtain rfl : answer = .ok () := accepted
  exact ⟨rfl, others⟩

theorem accepts_of_patient {output : TerminalOutput} (patient : Patient output.answers) :
    ByteSink.Accepts output := by
  intro earlier byte
  induction earlier generalizing output with
  | nil => exact (Patient.rest patient byte).1
  | cons first more ih => exact ih (Patient.rest patient first).2

/-- A descriptor was given the bytes that were written to it. -/
def record : ByteSink.Record TerminalOutput where
  delivered output := output.written.toList
  accepted := by
    intro output byte rest answer
    simp only [ByteSink.writeByte, write] at answer
    split at answer
    · cases answer
      exact Array.toList_push
    · cases answer
  refused := by
    intro output byte error rest answer
    simp only [ByteSink.writeByte, write] at answer
    split at answer
    · cases answer
    · cases answer
      rfl

end TerminalOutput

theorem BufferedOutput.accepts (output : BufferedOutput) : ByteSink.Accepts output :=
  answerTo_eq output

namespace DiscardOutput

theorem accepts (output : DiscardOutput) : ByteSink.Accepts output := by
  intro earlier byte
  induction earlier generalizing output with
  | nil => rfl
  | cons first more ih => exact ih _

theorem byteCount_behind (output : DiscardOutput) (bytes : Bytes) :
    (ByteSink.behind output bytes).byteCount = output.byteCount + bytes.length := by
  induction bytes generalizing output with
  | nil => rfl
  | cons byte more ih =>
    have first : (ByteSink.writeByte output byte).2.byteCount = output.byteCount + 1 := rfl
    rw [ByteSink.behind_cons, ih, first, List.length_cons]
    omega

end DiscardOutput

namespace Machine

/-- A run of one machine on transports that answer alike ends alike, and its sink stands behind the
same bytes. -/
theorem run_rewire {ρ υ : Type} [ByteSource σ] [ByteSink τ] [ByteSource σ'] [ByteSink τ']
    (machine : Machine ρ υ) {source : σ} {sink : τ} {source' : σ'} {sink' : τ'}
    (sources : ByteSource.Alike source source') (sinks : ByteSink.Alike sink sink')
    (budget : Nat) :
    RunsAlike ((machine.rewire source sink).run budget)
        ((machine.rewire source' sink').run budget) ∧
      ((machine.rewire source sink).run budget).value.machine.sink =
        ByteSink.behind sink ((machine.rewire source' sink').emitted budget) := by
  obtain ⟨runs, written⟩ := (machine.twin_rewire sources sinks).runFrom budget 0 []
  refine ⟨runs, ?_⟩
  rw [← written]
  exact sink_runFrom budget (machine.rewire source sink) 0 []

/-- A machine runs on a terminal as it does on transports in memory, however many reads and writes
are tried again: the run has the same outcome and the same steps and leaves the same state. The
descriptor is given exactly the bytes that the buffer captures. A sink that drops them changes
nothing in the machine, on either source, and counts them. -/
theorem transports_interchangeable {ρ υ : Type} (machine : Machine ρ υ) {bytes : Bytes}
    {keys : TerminalInput} (delivers : TerminalInput.Delivers keys.answers bytes)
    {screen : TerminalOutput} (patient : Patient screen.answers) (captured : BufferedOutput)
    (dropped : DiscardOutput) (budget : Nat) :
    let queued := BufferedInput.ofBytes bytes 0
    let buffered := (machine.rewire queued captured).run budget
    ∃ written : Bytes, buffered.value.machine.sink.bytes = captured.bytes ++ written ∧
      RunsAlike ((machine.rewire keys screen).run budget) buffered ∧
      ((machine.rewire keys screen).run budget).value.machine.sink.written.toList =
        screen.written.toList ++ written ∧
      RunsAlike ((machine.rewire queued dropped).run budget) buffered ∧
      ((machine.rewire queued dropped).run budget).value.machine.sink.byteCount =
        dropped.byteCount + written.length ∧
      RunsAlike ((machine.rewire keys dropped).run budget) buffered ∧
      ((machine.rewire keys dropped).run budget).value.machine.sink.byteCount =
        dropped.byteCount + written.length := by
  intro queued buffered
  have accepting := TerminalOutput.accepts_of_patient patient
  have typed := delivers.alike
  have still : ByteSource.Alike queued queued := fun _ => rfl
  obtain ⟨_, captures⟩ := machine.run_rewire still (captured.accepts.alike captured.accepts) budget
  obtain ⟨shown, shows⟩ := machine.run_rewire typed (accepting.alike captured.accepts) budget
  obtain ⟨hidden, hides⟩ := machine.run_rewire still (dropped.accepts.alike captured.accepts) budget
  obtain ⟨mute, mutes⟩ := machine.run_rewire typed (dropped.accepts.alike captured.accepts) budget
  refine ⟨(machine.rewire queued captured).emitted budget, ?_, shown, ?_, hidden, ?_, mute, ?_⟩
  · rw [captures]
    exact captured.accepts.delivered_behind BufferedOutput.record _
  · rw [shows]
    exact accepting.delivered_behind TerminalOutput.record _
  · rw [hides, DiscardOutput.byteCount_behind]
  · rw [mutes, DiscardOutput.byteCount_behind]

end Machine

/-- A program that reads a unit and writes it. -/
def State.echo : State := .initial (.ofWords #[20, 32768, 19, 32768])

namespace State

theorem echo_word {address : Nat} (inside : address < memorySize) :
    echo.memory.word address = #[20, 32768, 19, 32768].getD address 0 := by
  rw [← Memory.get_ofWords _ ⟨address, inside⟩, ← Memory.word_eq_get]
  rfl

theorem fetch_echo : echo.fetch = .ok (.input 32768, 2) := by
  have fetches : echo.Fetches .input 0 := ⟨rfl, by decide, by rw [echo_word (by decide)]; rfl⟩
  rw [fetches.fetch_eq, Instruction.decode, echo_word (by decide)]
  rfl

/-- The state once a unit was read. -/
def echoed (byte : UInt8) : State :=
  { echo with registers := echo.registers.put 0 byte.toUInt16, pc := .ofNat 2 }

theorem fetch_echoed (byte : UInt8) : (echoed byte).fetch = .ok (.output 32768, 4) := by
  have same : (echoed byte).memory = echo.memory := rfl
  have fetches : (echoed byte).Fetches .output 2 :=
    ⟨rfl, by decide, by rw [same, echo_word (by decide)]; rfl⟩
  rw [fetches.fetch_eq, Instruction.decode, same, echo_word (by decide)]
  rfl

theorem emits_echo : echo.emits = [] := by
  rw [emits, fetch_echo]
  rfl

theorem emits_of_held {state : State} {byte : UInt8} {next : Nat}
    (fetched : state.fetch = .ok (.output 32768, next))
    (held : state.registers.get 0 = byte.toUInt16) : state.emits = [byte] := by
  have resolved : state.registers.resolve 32768 = .ok byte.toUInt16 := by
    rw [← held]
    rfl
  have planned : state.plan (.output 32768) = .ok (.emit byte) := by
    simp only [plan, resolved]
    exact congrArg (fun byte => Except.ok (Action.emit byte)) (UInt8.toUInt8_toUInt16 byte)
  simp only [emits, fetched, planned]

theorem emits_echoed (byte : UInt8) : (echoed byte).emits = [byte] :=
  emits_of_held (fetch_echoed byte) ((Registers.get_put _ _ _ _).trans (if_pos rfl))

end State

namespace Machine

variable [ByteSource σ] [ByteSink τ]

theorem emitted_one (machine : Machine σ τ) : machine.emitted 1 = machine.toState.emits := by
  rcases stepped : machine.step with ⟨next, _ | _ | reason⟩ <;>
    simp only [emitted, stepped, List.append_nil]

theorem emitted_succ {machine next : Machine σ τ} (stepped : machine.step = (next, .ok none))
    (budget : Nat) :
    machine.emitted (budget + 1) = machine.toState.emits ++ next.emitted budget := by
  rw [emitted, stepped]

omit [ByteSource σ] [ByteSink τ] in
theorem rewire_ofState (state : State) (source : σ) (sink : τ) (tracing : Bool) (source' : σ')
    (sink' : τ') :
    (ofState state source sink tracing).rewire source' sink' =
      ofState state source' sink' tracing := rfl

/-- The program writes the first unit that it reads. -/
theorem emitted_echo {source : σ} {byte : UInt8} (sink : τ) (tracing : Bool)
    (answer : (ByteSource.readVisible source).1 = .ok (some byte)) :
    (ofState .echo source sink tracing).emitted 2 = [byte] := by
  generalize start : ofState .echo source sink tracing = machine
  have state : machine.toState = .echo := by rw [← start]; rfl
  have fetched : machine.toState.fetch = .ok (.input 32768, 2) := by rw [state, State.fetch_echo]
  have planned : machine.toState.plan (.input 32768) = .ok (.receive 0) := rfl
  obtain ⟨rest, answered⟩ :
      ∃ rest, ByteSource.readVisible machine.source = (.ok (some byte), rest) := by
    rw [← start]
    exact ⟨_, Prod.ext answer rfl⟩
  have stepped : machine.step = ({ machine with
      source := rest
      registers := machine.registers.put 0 byte.toUInt16
      pc := .ofNat 2
      steps := machine.steps + 1
      lastHalt := none }, .ok none) := by
    rw [step_of_plan fetched planned]
    simp only [perform, answered, commit]
  rw [emitted_succ stepped, emitted_one, state, State.emits_echo, List.nil_append,
    ← State.emits_echoed byte, State.echoed, ← state]

/-- A key behind a carriage return, with retried calls around both and before the write, is echoed
to the terminal. -/
theorem transports_interchangeable_echo :
    let busy : SystemFailure := ⟨"EAGAIN", "EAGAIN: resource temporarily unavailable"⟩
    let interrupted : SystemFailure := ⟨"EINTR", "EINTR: interrupted system call"⟩
    let keys : TerminalInput :=
      ⟨0, [.failed busy, .done 13, .failed interrupted, .done 65, .failed busy]⟩
    let screen : TerminalOutput := ⟨1, [.failed interrupted, .done ()], #[]⟩
    TerminalInput.Delivers keys.answers [13, 65] ∧ Patient screen.answers ∧
      ((ofState .echo keys screen false).run 2).value.machine.sink.written.toList = [65] := by
  intro busy interrupted keys screen
  have delivers : TerminalInput.Delivers keys.answers [13, 65] :=
    .again rfl (.byte (.again rfl (.byte (.again rfl .done))))
  have patient : Patient screen.answers := by
    intro failure member
    rcases List.mem_cons.mp member with same | later
    · cases same
      rfl
    · cases List.mem_singleton.mp later
  refine ⟨delivers, patient, ?_⟩
  obtain ⟨written, captured, _, shown, _⟩ :=
    transports_interchangeable (ofState .echo keys screen false) delivers patient .empty ⟨0⟩ 2
  have read : (ByteSource.readVisible (BufferedInput.ofBytes [13, 65] 0)).1 = .ok (some 65) :=
    (BufferedInput.readVisible_visible _).1
  simp only [rewire_ofState] at captured shown
  rw [run, sink_runFrom, emitted_echo BufferedOutput.empty false read] at captured
  obtain rfl : [65] = written := captured
  exact shown

end Machine

end AdventureMachine
