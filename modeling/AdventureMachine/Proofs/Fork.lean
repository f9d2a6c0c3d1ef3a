import AdventureMachine.Adventure
import AdventureMachine.Proofs.Interchange

/-! Forks of a game. A copy holds the same bytes in storage of its own, and spare storage never
shows in an answer. So a fork answers everything as the game it was taken from, and games that are
played side by side do not notice one another. -/
namespace AdventureMachine

variable {σ τ σ' τ' : Type}

/-- A cursor that is not beyond its bytes. -/
def Within (contents : Bytes × Int) : Prop := contents.2 ≤ contents.1.length

/-- Bytes with a cursor that is put back to their end if it is beyond them. -/
def clamped (bytes : Bytes) (cursor : Int) : Bytes × Int := (bytes, min cursor bytes.length)

theorem within_clamped (bytes : Bytes) (cursor : Int) : Within (clamped bytes cursor) :=
  Int.min_le_right _ _

theorem Within.clamped_eq {contents : Bytes × Int} (within : Within contents) :
    clamped contents.1 contents.2 = contents := by
  rw [clamped, Int.min_eq_left within]

theorem Within.append {contents : Bytes × Int} (within : Within contents) (more : Bytes) :
    Within (contents.1 ++ more, contents.2) := by
  unfold Within at within ⊢
  rw [List.length_append]
  omega

namespace BufferedInput

/-- The bytes and the position, whatever storage they have. -/
def contents (input : BufferedInput) : Bytes × Int := (input.buffer.toList, input.cursor)

theorem contents_ofBytes (bytes : Bytes) (position : Int) :
    (ofBytes bytes position).contents = clamped bytes position := by
  rw [contents, ofBytes, ByteBuffer.toList_ofList, clamped]

theorem clone_eq (input : BufferedInput) :
    input.clone = ofBytes input.contents.1 input.contents.2 := by
  rw [clone, contents, ByteBuffer.bytes_eq]

theorem contents_append (input : BufferedInput) (bytes : Bytes) :
    (input.append bytes).contents = (input.contents.1 ++ bytes, input.contents.2) := by
  rw [contents, append, ByteBuffer.toList_append, contents]

/-- What a read answers and leaves, told from the bytes and the position. -/
theorem readByte_eq (input : BufferedInput) :
    (ByteSource.readByte input).1 = .ok input.upcoming.head? ∧
      (ByteSource.readByte input).2.contents =
        (input.contents.1, input.contents.2 + input.upcoming.head?.toList.length) := by
  cases held : input.upcoming with
  | nil =>
    rw [readByte_of_nil held]
    exact ⟨rfl, by simp [contents]⟩
  | cons byte rest =>
    rw [(readByte_of_cons held).1]
    exact ⟨rfl, rfl⟩

theorem upcoming_congr {input other : BufferedInput} (same : input.contents = other.contents) :
    input.upcoming = other.upcoming := by
  obtain ⟨bytes, cursor⟩ := Prod.mk.inj same
  rw [upcoming, upcoming, bytes, cursor]

theorem readByte_congr {input other : BufferedInput} (same : input.contents = other.contents) :
    (ByteSource.readByte input).1 = (ByteSource.readByte other).1 ∧
      (ByteSource.readByte input).2.contents = (ByteSource.readByte other).2.contents := by
  rw [input.readByte_eq.1, other.readByte_eq.1, input.readByte_eq.2, other.readByte_eq.2, same,
    upcoming_congr same]
  exact ⟨rfl, rfl⟩

theorem contents_skips {count : Nat} {input rest other : BufferedInput}
    (skips : ByteSource.Skips count input rest) (same : input.contents = other.contents) :
    ∃ left, ByteSource.Skips count other left ∧ rest.contents = left.contents := by
  induction skips generalizing other with
  | none _ => exact ⟨other, .none other, same⟩
  | one answer _ ih =>
    obtain ⟨answers, rests⟩ := readByte_congr same
    rw [answer] at answers rests
    obtain ⟨left, skipped, related⟩ := ih rests
    have first : ByteSource.readByte other =
        (.ok (some ByteSource.carriageReturn), (ByteSource.readByte other).2) :=
      Prod.ext answers.symm rfl
    exact ⟨left, .one first skipped, related⟩

/-- Inputs with the same contents skip the same carriage returns. -/
theorem readVisible_congr {input other : BufferedInput} (same : input.contents = other.contents) :
    (ByteSource.readVisible input).1 = (ByteSource.readVisible other).1 ∧
      (ByteSource.readVisible input).2.contents = (ByteSource.readVisible other).2.contents := by
  obtain ⟨visible, count, middle, skips, last⟩ := ByteSource.readVisible_answers input
  obtain ⟨left, skipped, related⟩ := contents_skips skips same
  obtain ⟨answers, rests⟩ := readByte_congr related
  rw [last] at answers rests
  have found : ByteSource.readVisible other = ByteSource.readByte left := by
    rw [skipped.readVisible_eq, ByteSource.readVisible_of_ne (by rw [← answers]; exact visible)]
  rw [found]
  exact ⟨answers, rests⟩

theorem within_readByte {input : BufferedInput} (within : Within input.contents) :
    Within (ByteSource.readByte input).2.contents := by
  rw [Within, input.readByte_eq.2]
  cases held : input.upcoming with
  | nil => simpa [Within] using within
  | cons byte rest =>
    have count := congrArg List.length held
    simp only [upcoming] at count
    split at count
    · simp only [List.length_drop, List.length_cons] at count
      simp only [contents, List.head?_cons, Option.toList_some, List.length_singleton]
      omega
    · cases count

theorem within_skips {count : Nat} {input rest : BufferedInput}
    (skips : ByteSource.Skips count input rest) (within : Within input.contents) :
    Within rest.contents := by
  induction skips with
  | none _ => exact within
  | one answer _ ih => exact ih (by simpa only [answer] using within_readByte within)

theorem within_readVisible {input : BufferedInput} (within : Within input.contents) :
    Within (ByteSource.readVisible input).2.contents := by
  obtain ⟨_, count, middle, skips, last⟩ := ByteSource.readVisible_answers input
  simpa only [last] using within_readByte (within_skips skips within)

end BufferedInput

namespace BufferedOutput

/-- The bytes and the cursor, whatever storage they have. -/
def contents (output : BufferedOutput) : Bytes × Int := (output.buffer.toList, output.cursor)

theorem contents_ofBytes (bytes : Bytes) (cursor : Int) :
    (ofBytes bytes cursor).contents = clamped bytes cursor := by
  rw [contents, ofBytes, ByteBuffer.toList_ofList, clamped]

theorem clone_eq (output : BufferedOutput) :
    output.clone = ofBytes output.contents.1 output.contents.2 := by
  rw [clone, contents, bytes, ByteBuffer.bytes_eq]

theorem contents_behind (output : BufferedOutput) (bytes : Bytes) :
    (ByteSink.behind output bytes).contents = (output.contents.1 ++ bytes, output.contents.2) := by
  induction bytes generalizing output with
  | nil => rw [List.append_nil]; rfl
  | cons byte more ih =>
    have first : (ByteSink.writeByte output byte).2.contents =
        (output.contents.1 ++ [byte], output.contents.2) := by
      simp only [ByteSink.writeByte, write, contents, ByteBuffer.toList_push]
    rw [ByteSink.behind_cons, ih, first, List.append_assoc, List.singleton_append]

theorem unread_eq (output : BufferedOutput) :
    output.unread = Text.decode (output.contents.1.drop output.contents.2.toNat) := by
  rw [unread, unreadBytes, ByteBuffer.suffixFrom_eq, contents]

theorem contents_consume (output : BufferedOutput) (count : Int) :
    (output.consume count).contents =
      (output.contents.1, min (output.contents.1.length : Int) (output.contents.2 + count)) := by
  rw [contents, contents, ByteBuffer.length_toList]
  rfl

theorem contents_readNew (output : BufferedOutput) :
    output.readNew.2.contents = (output.contents.1, (output.contents.1.length : Int)) := by
  rw [contents, contents, ByteBuffer.length_toList]
  rfl

/-- The next response and the cursor behind it are told from the bytes and the cursor. -/
theorem takeResponse_congr {output other : BufferedOutput}
    (same : output.contents = other.contents) :
    output.takeResponse.1 = other.takeResponse.1 ∧
      output.takeResponse.2.contents = other.takeResponse.2.contents := by
  have unread : output.unread = other.unread := by rw [unread_eq, unread_eq, same]
  simp only [takeResponse, unread]
  split
  · exact ⟨unread, by rw [contents_readNew, contents_readNew, same]⟩
  · exact ⟨rfl, by rw [contents_consume, contents_consume, same]⟩

theorem within_consume (output : BufferedOutput) (count : Int) :
    Within (output.consume count).contents := by
  rw [contents_consume]
  exact Int.min_le_left _ _

theorem within_readNew (output : BufferedOutput) : Within output.readNew.2.contents := by
  rw [contents_readNew]
  exact Int.le_refl _

theorem within_takeResponse (output : BufferedOutput) :
    Within output.takeResponse.2.contents := by
  rw [takeResponse]
  split
  · exact output.within_readNew
  · exact output.within_consume _

end BufferedOutput

/-- A relation that steps keep, with the same outcome on both sides, is kept by runs. -/
theorem Machine.runFrom_keeps [ByteSource σ] [ByteSink τ] [ByteSource σ'] [ByteSink τ']
    {Related : Machine σ τ → Machine σ' τ' → Prop}
    (kept : ∀ {machine other}, Related machine other →
      machine.step.2 = other.step.2 ∧ Related machine.step.1 other.step.1)
    {machine : Machine σ τ} {other : Machine σ' τ'} (related : Related machine other)
    (budget steps steps' : Nat) (journal journal' : List Log.Record) :
    Related (runFrom budget machine steps journal).value.machine
      (runFrom budget other steps' journal').value.machine := by
  induction budget generalizing machine other steps steps' journal journal' with
  | zero => exact related
  | succ budget ih =>
    obtain ⟨outcome, next⟩ := kept related
    rcases stepped : machine.step with ⟨after, answer⟩
    rcases stepped' : other.step with ⟨left, answer'⟩
    rw [stepped, stepped'] at outcome next
    obtain rfl : answer = answer' := outcome
    rcases answer with error | _ | reason
    · simp only [runFrom, stepped, stepped']
      exact next
    · simp only [runFrom, stepped, stepped']
      exact ih next _ _ _ _
    · simp only [runFrom, stepped, stepped']
      exact next

/-- What can be done with a game from outside. -/
inductive Move where
  | send (command : String)
  | step
  | run (budget : Nat)
  | setRegister (index value : Number)
  | takeResponse
  | consume (count : Int)
  | readNew
  | unread
  | save
  | fork
  | clone (source : BufferedInput) (sink : BufferedOutput)

/-- What a game answers to a move. -/
inductive Reply where
  | done
  | refused (error : Error)
  | stepped (outcome : Machine.Outcome) (journal : List Log.Record)
  | ran (outcome : Machine.Outcome) (steps : Nat) (journal : List Log.Record)
  | text (text : String)
  | saved (answer : Except UnsavableCounter Bytes)
  | copied (copy : Adventure)

/-- The game that comes into being with a reply. -/
def Reply.copies : Reply → List Adventure
  | .copied copy => [copy]
  | _ => []

/-- Moves that hand over no transport whose cursor is beyond its bytes. -/
def Move.Tidy : Move → Prop
  | .clone source sink => Within source.contents ∧ Within sink.contents
  | _ => True

/-- What can be seen of a game. -/
structure View where
  state : State
  steps : Nat
  lastHalt : Option HaltReason
  position : Int
  pending : Int
  output : Bytes
  cursor : Int

namespace Adventure

/-- What the game shows. -/
def view (game : Adventure) : View where
  state := game.toState
  steps := game.steps
  lastHalt := game.lastHalt
  position := game.source.position
  pending := game.source.pending
  output := game.sink.bytes
  cursor := game.sink.cursor

/-- The answer to a move and the game after it. -/
def play (game : Adventure) : Move → Reply × Adventure
  | .send command => (.done, game.send command)
  | .step =>
    let ⟨(next, outcome), journal⟩ := game.loggedStep
    (.stepped outcome journal, next)
  | .run budget =>
    let ⟨run, journal⟩ := game.run budget
    (.ran run.outcome run.steps journal, run.machine)
  | .setRegister index value =>
    match game.setRegister index value with
    | .ok changed => (.done, changed)
    | .error error => (.refused error, game)
  | .takeResponse =>
    let (response, next) := game.takeResponse
    (.text response, next)
  | .consume count => (.done, { game with sink := game.sink.consume count })
  | .readNew =>
    let (text, sink) := game.sink.readNew
    (.text text, { game with sink })
  | .unread => (.text game.sink.unread, game)
  | .save => (.saved game.toState.save, game)
  | .fork => (.copied game.fork, game)
  | .clone source sink => (.copied (game.rewire source sink), game)

/-- The answers to a sequence of moves and the game after them. -/
def replay (game : Adventure) : List Move → List Reply × Adventure
  | [] => ([], game)
  | move :: rest =>
    let (reply, next) := game.play move
    let (replies, last) := replay next rest
    (reply :: replies, last)

/-- Two games that differ at most in the storage of their transports. -/
structure Same (game other : Adventure) : Prop where
  state : game.toState = other.toState
  source : game.source.contents = other.source.contents
  sink : game.sink.contents = other.sink.contents
  steps : game.steps = other.steps
  lastHalt : game.lastHalt = other.lastHalt
  tracing : game.tracing = other.tracing

/-- A game whose cursors are not beyond their bytes. -/
structure Tidy (game : Adventure) : Prop where
  source : Within game.source.contents
  sink : Within game.sink.contents

/-- A fork differs at most in the storage of its transports. -/
theorem Tidy.fork {game : Adventure} (tidy : game.Tidy) : Same game.fork game := by
  refine ⟨rfl, ?_, ?_, rfl, rfl, rfl⟩
  · simp only [Adventure.fork, Machine.rewire, BufferedInput.clone_eq,
      BufferedInput.contents_ofBytes, tidy.source.clamped_eq]
  · simp only [Adventure.fork, Machine.rewire, BufferedOutput.clone_eq,
      BufferedOutput.contents_ofBytes, tidy.sink.clamped_eq]

theorem tidy_rewire {ρ υ : Type} (machine : Machine ρ υ) (queued shown : Bytes)
    (position cursor : Int) :
    Tidy (machine.rewire (.ofBytes queued position) (.ofBytes shown cursor)) := by
  refine ⟨?_, ?_⟩
  · simp only [Machine.rewire, BufferedInput.contents_ofBytes]
    exact within_clamped _ _
  · simp only [Machine.rewire, BufferedOutput.contents_ofBytes]
    exact within_clamped _ _

theorem Same.view {game other : Adventure} (same : Same game other) : game.view = other.view := by
  obtain ⟨queued, position⟩ := Prod.mk.inj same.source
  obtain ⟨shown, cursor⟩ := Prod.mk.inj same.sink
  simp only [Adventure.view, same.state, same.steps, same.lastHalt, BufferedInput.position,
    BufferedInput.pending, ← ByteBuffer.length_toList, BufferedOutput.bytes, ByteBuffer.bytes_eq,
    queued, position, shown, cursor]

theorem Same.twin {game other : Adventure} (same : Same game other) : Machine.Twin game other :=
  ⟨⟨same.state, (BufferedInput.alike_iff _ _).mpr (BufferedInput.upcoming_congr same.source),
    BufferedOutput.alike _ _⟩, same.steps, same.lastHalt, same.tracing⟩

theorem Same.step {game other : Adventure} (same : Same game other) :
    game.step.2 = other.step.2 ∧ Same game.step.1 other.step.1 := by
  obtain ⟨outcome, twin⟩ := same.twin.step
  have left := game.records_step
  have right := other.records_step
  refine ⟨outcome, twin.state, ?_, ?_, twin.steps, twin.lastHalt, twin.tracing⟩
  · rw [left.source, right.source, same.state]
    split
    · exact (BufferedInput.readVisible_congr same.source).2
    · exact same.source
  · rw [left.sink, right.sink, BufferedOutput.contents_behind, BufferedOutput.contents_behind,
      same.state, same.sink]

/-- On given transports nothing is left that could differ. -/
theorem Same.rewire_eq {game other : Adventure} (same : Same game other) (source : BufferedInput)
    (sink : BufferedOutput) : game.rewire source sink = other.rewire source sink := by
  simp only [Machine.rewire, same.state, same.steps, same.lastHalt, same.tracing]

theorem Same.fork_eq {game other : Adventure} (same : Same game other) :
    game.fork = other.fork := by
  rw [fork, fork, BufferedInput.clone_eq, BufferedInput.clone_eq, BufferedOutput.clone_eq,
    BufferedOutput.clone_eq, same.source, same.sink, same.rewire_eq]

/-- The registers alone decide whether one of them can be set, and to what. -/
theorem Same.setRegister {game other : Adventure} (same : Same game other) (index value : Number) :
    (∃ error, game.setRegister index value = .error error ∧
      other.setRegister index value = .error error) ∨
    ∃ registers, game.setRegister index value = .ok { game with registers } ∧
      other.setRegister index value = .ok { other with registers } := by
  have registers : game.registers = other.registers := congrArg State.registers same.state
  cases value with
  | fraction => exact .inl ⟨_, rfl, rfl⟩
  | whole number =>
    simp only [Machine.setRegister, registers]
    split
    · cases other.registers.set (index.shift firstRegister) (.whole number) with
      | error error => exact .inl ⟨error, rfl, rfl⟩
      | ok changed => exact .inr ⟨changed, rfl, rfl⟩
    · exact .inl ⟨_, rfl, rfl⟩

/-- Games that differ in storage only answer a move alike. -/
theorem Same.play {game other : Adventure} (same : Same game other) (move : Move) :
    (game.play move).1 = (other.play move).1 ∧
      Same (game.play move).2 (other.play move).2 := by
  cases move with
  | send command =>
    refine ⟨rfl, same.state, ?_, same.sink, same.steps, same.lastHalt, same.tracing⟩
    simp only [Adventure.play, send, BufferedInput.contents_append, same.source]
  | step =>
    obtain ⟨outcome, next⟩ := same.step
    simp only [Adventure.play, Machine.loggedStep, same.twin.traceRecord?_eq, outcome]
    exact ⟨trivial, next⟩
  | run budget =>
    obtain ⟨runs, _⟩ := same.twin.runFrom budget 0 []
    have next := Machine.runFrom_keeps Same.step same budget 0 0 [] []
    simp only [Adventure.play, Machine.run, runs.outcome, runs.steps, runs.journal]
    exact ⟨trivial, next⟩
  | setRegister index value =>
    rcases same.setRegister index value with ⟨error, first, second⟩ | ⟨registers, first, second⟩
    · simp only [Adventure.play, first, second]
      exact ⟨trivial, same⟩
    · simp only [Adventure.play, first, second]
      exact ⟨trivial, by simp only [same.state], same.source, same.sink, same.steps, same.lastHalt,
        same.tracing⟩
  | takeResponse =>
    obtain ⟨response, next⟩ := BufferedOutput.takeResponse_congr same.sink
    simp only [Adventure.play, takeResponse, response]
    exact ⟨trivial, same.state, same.source, next, same.steps, same.lastHalt, same.tracing⟩
  | consume count =>
    refine ⟨rfl, same.state, same.source, ?_, same.steps, same.lastHalt, same.tracing⟩
    simp only [Adventure.play, BufferedOutput.contents_consume, same.sink]
  | readNew =>
    refine ⟨?_, same.state, same.source, ?_, same.steps, same.lastHalt, same.tracing⟩
    · simp only [Adventure.play, BufferedOutput.readNew, BufferedOutput.unread_eq, same.sink]
    · simp only [Adventure.play, BufferedOutput.contents_readNew, same.sink]
  | unread =>
    refine ⟨?_, same⟩
    simp only [Adventure.play, BufferedOutput.unread_eq, same.sink]
  | save =>
    refine ⟨?_, same⟩
    simp only [Adventure.play, same.state]
  | fork =>
    refine ⟨?_, same⟩
    simp only [Adventure.play, same.fork_eq]
  | clone source sink =>
    refine ⟨?_, same⟩
    simp only [Adventure.play, same.rewire_eq]

theorem Same.replay {game other : Adventure} (same : Same game other) (moves : List Move) :
    (game.replay moves).1 = (other.replay moves).1 ∧
      Same (game.replay moves).2 (other.replay moves).2 := by
  induction moves generalizing game other with
  | nil => exact ⟨rfl, same⟩
  | cons move rest ih =>
    obtain ⟨reply, next⟩ := same.play move
    obtain ⟨replies, last⟩ := ih next
    refine ⟨?_, last⟩
    simp only [Adventure.replay, reply, replies]

theorem Tidy.step {game : Adventure} (tidy : game.Tidy) : Tidy game.step.1 := by
  have records := game.records_step
  constructor
  · rw [records.source]
    split
    · exact BufferedInput.within_readVisible tidy.source
    · exact tidy.source
  · rw [records.sink, BufferedOutput.contents_behind]
    exact tidy.sink.append _

theorem Tidy.after {game : Adventure} (tidy : game.Tidy) (count : Nat) :
    Tidy (game.after count) := by
  induction count generalizing game with
  | zero => exact tidy
  | succ count ih => exact ih tidy.step

/-- No move takes a cursor beyond its bytes. -/
theorem Tidy.play {game : Adventure} (tidy : game.Tidy) (move : Move) :
    Tidy (game.play move).2 := by
  cases move with
  | send command =>
    refine ⟨?_, tidy.sink⟩
    simp only [Adventure.play, send, BufferedInput.contents_append]
    exact tidy.source.append _
  | step => exact tidy.step
  | run budget =>
    obtain ⟨count, same⟩ := game.runFrom_eq_after budget 0 []
    simp only [Adventure.play, Machine.run, same]
    exact tidy.after count
  | setRegister index value =>
    cases answer : game.setRegister index value with
    | error error =>
      simp only [Adventure.play, answer]
      exact tidy
    | ok changed =>
      obtain ⟨register, word, _, rfl⟩ := Machine.setRegister_ok answer
      simp only [Adventure.play, answer]
      exact ⟨tidy.source, tidy.sink⟩
  | takeResponse =>
    simp only [Adventure.play, Adventure.takeResponse]
    exact ⟨tidy.source, game.sink.within_takeResponse⟩
  | consume count => exact ⟨tidy.source, game.sink.within_consume count⟩
  | readNew => exact ⟨tidy.source, game.sink.within_readNew⟩
  | unread => exact tidy
  | save => exact tidy
  | fork => exact tidy
  | clone source sink => exact tidy

/-- A copy that comes about by a tidy move is tidy. -/
theorem tidy_copies (game : Adventure) {move : Move} (tidy : move.Tidy) :
    ∀ copy ∈ (game.play move).1.copies, copy.Tidy := by
  intro copy member
  cases move with
  | fork =>
    obtain rfl : copy = game.fork := List.mem_singleton.mp member
    rw [Adventure.fork, BufferedInput.clone_eq, BufferedOutput.clone_eq]
    exact tidy_rewire game _ _ _ _
  | clone source sink =>
    obtain rfl : copy = game.rewire source sink := List.mem_singleton.mp member
    exact ⟨tidy.1, tidy.2⟩
  | setRegister index value =>
    cases answer : game.setRegister index value <;>
      simp only [Adventure.play, answer, Reply.copies, List.not_mem_nil] at member
  | send | step | run | takeResponse | consume | readNew | unread | save =>
    exact absurd member List.not_mem_nil

theorem tracing_after (game : Adventure) (count : Nat) :
    (game.after count).tracing = game.tracing := by
  induction count generalizing game with
  | zero => rfl
  | succ count ih => exact (ih game.step.1).trans game.records_step.tracing

/-- No move changes whether a game is traced. -/
theorem tracing_play (game : Adventure) (move : Move) :
    (game.play move).2.tracing = game.tracing := by
  cases move with
  | step => exact game.records_step.tracing
  | run budget =>
    obtain ⟨count, same⟩ := game.runFrom_eq_after budget 0 []
    simp only [Adventure.play, Machine.run, same, tracing_after]
  | setRegister index value =>
    cases answer : game.setRegister index value with
    | error error => simp only [Adventure.play, answer]
    | ok changed =>
      obtain ⟨register, word, _, rfl⟩ := Machine.setRegister_ok answer
      simp only [Adventure.play, answer]
  | send | takeResponse | consume | readNew | unread | save | fork | clone => rfl

/-- A game that was just loaded onto new transports. -/
inductive Loaded : Adventure → Prop where
  | program {image queued shown : Bytes} {position cursor : Int} {tracing : Bool}
      {game : Adventure} (loaded : Machine.ofImage image (BufferedInput.ofBytes queued position)
        (BufferedOutput.ofBytes shown cursor) tracing = .ok game) : Loaded game
  | snapshot {bytes queued shown : Bytes} {position cursor : Int} {tracing : Bool}
      {game : Adventure} (loaded : Machine.ofSnapshot bytes (BufferedInput.ofBytes queued position)
        (BufferedOutput.ofBytes shown cursor) tracing = .ok game) : Loaded game

/-- A loaded game has executed nothing, and its cursors are not beyond their bytes. -/
theorem Loaded.start {game : Adventure} (loaded : Loaded game) :
    game.steps = 0 ∧ game.lastHalt = none ∧ game.Tidy := by
  cases loaded with
  | program loaded =>
    obtain ⟨words, _, rfl⟩ := Machine.ofImage_ok loaded
    exact ⟨rfl, rfl,
      tidy_rewire (Machine.ofState (.initial (.ofWords words.toArray)) () () _) _ _ _ _⟩
  | snapshot loaded =>
    obtain ⟨snapshot, _, rfl⟩ := Machine.ofSnapshot_ok loaded
    exact ⟨rfl, rfl, tidy_rewire (Machine.ofState snapshot.toState () () _) _ _ _ _⟩

end Adventure

/-- The entries of a list that belong to one game. -/
def own {α : Type} (index : Nat) (entries : List (Nat × α)) : List α :=
  entries.filterMap fun entry => if entry.1 = index then some entry.2 else none

theorem own_cons_self {α : Type} (index : Nat) (value : α) (rest : List (Nat × α)) :
    own index ((index, value) :: rest) = value :: own index rest := by
  rw [own, List.filterMap_cons, if_pos rfl]
  rfl

theorem own_cons_of_ne {α : Type} {index other : Nat} (different : other ≠ index) (value : α)
    (rest : List (Nat × α)) : own index ((other, value) :: rest) = own index rest := by
  rw [own, List.filterMap_cons, if_neg different]
  rfl

namespace Adventure

/-- Games played side by side. Each move goes to the game that it names, and copies join at the
end. The answers come with the game that gave them. -/
def playAll (games : List Adventure) : List (Nat × Move) → List (Nat × Reply) × List Adventure
  | [] => ([], games)
  | (index, move) :: rest =>
    match games[index]? with
    | none => playAll games rest
    | some game =>
      let (reply, next) := game.play move
      let (replies, last) := playAll (games.set index next ++ reply.copies) rest
      ((index, reply) :: replies, last)

/-- Each game gives the answers, and goes on to the game, that its own moves alone lead to. -/
theorem playAll_own {games : List Adventure} {index : Nat} {game : Adventure}
    (present : games[index]? = some game) (moves : List (Nat × Move)) :
    own index (playAll games moves).1 = (game.replay (own index moves)).1 ∧
      (playAll games moves).2[index]? = some (game.replay (own index moves)).2 := by
  induction moves generalizing games game with
  | nil => exact ⟨rfl, present⟩
  | cons entry rest ih =>
    obtain ⟨target, move⟩ := entry
    -- Copies join behind the games, so every game keeps its place.
    have inside := (List.getElem?_eq_some_iff.mp present).1
    by_cases same : target = index
    · subst same
      have next : (games.set target (game.play move).2 ++ (game.play move).1.copies)[target]? =
          some (game.play move).2 := by
        rw [List.getElem?_append_left (by simpa using inside), List.getElem?_set_self inside]
      obtain ⟨replies, last⟩ := ih next
      simp only [playAll, present, own_cons_self, replies, last, replay]
      exact ⟨trivial, trivial⟩
    · rw [own_cons_of_ne same]
      cases found : games[target]? with
      | none =>
        simp only [playAll, found]
        exact ih present
      | some other =>
        have kept : (games.set target (other.play move).2 ++ (other.play move).1.copies)[index]? =
            some game := by
          rw [List.getElem?_append_left (by simpa using inside), List.getElem?_set_ne same, present]
        obtain ⟨replies, last⟩ := ih kept
        simp only [playAll, found, own_cons_of_ne same, replies, last]
        exact ⟨trivial, trivial⟩

theorem tidy_playAll {games : List Adventure} (tidy : ∀ game ∈ games, game.Tidy)
    {moves : List (Nat × Move)} (moved : ∀ entry ∈ moves, entry.2.Tidy) :
    ∀ game ∈ (playAll games moves).2, game.Tidy := by
  induction moves generalizing games with
  | nil => exact tidy
  | cons entry rest ih =>
    obtain ⟨index, move⟩ := entry
    obtain ⟨first, others⟩ := List.forall_mem_cons.mp moved
    cases found : games[index]? with
    | none =>
      simp only [playAll, found]
      exact ih tidy others
    | some game =>
      simp only [playAll, found]
      refine ih (fun other member => ?_) others
      rcases List.mem_append.mp member with kept | copied
      · rcases List.mem_or_eq_of_mem_set kept with old | rfl
        · exact tidy other old
        · exact (tidy game (List.mem_of_getElem? found)).play move
      · exact game.tidy_copies first other copied

end Adventure

end AdventureMachine
