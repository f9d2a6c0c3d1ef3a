import AdventureMachine.Proofs.Disassembly
import AdventureMachine.Proofs.LineLoop
import AdventureMachine.Proofs.Schedule

/-! Taking a line of input. The loop that a program writes out for it comes to the end of the line
in four steps for each byte that it sees. When the input runs out it waits, and no step leads out of
it before the line is complete. So a line that arrives in pieces is taken as the whole line would
have been. -/
namespace AdventureMachine

open ByteSource (seen)
open Text (lineFeed)

variable {τ : Type} [ByteSink τ]

/-- A line ends at its first line feed. -/
theorem line_unique {line other rest left : Bytes} (clean : lineFeed ∉ line)
    (clean' : lineFeed ∉ other) (same : line ++ lineFeed :: rest = other ++ lineFeed :: left) :
    line = other ∧ rest = left := by
  have shorter {short long more : Bytes} (inside : lineFeed ∉ long) {front back : Bytes}
      (longer : long = short ++ more) (ends : lineFeed :: front = more ++ lineFeed :: back) :
      more = [] := by
    cases more with
    | nil => rfl
    | cons byte others =>
      obtain ⟨rfl, -⟩ := List.cons.inj ends
      exact absurd (by simp [longer]) inside
  rcases List.append_eq_append_iff.mp same with ⟨more, longer, ends⟩ | ⟨more, longer, ends⟩
  · obtain rfl := shorter clean' longer ends
    exact ⟨by rw [longer, List.append_nil], (List.cons.inj ends).2⟩
  · obtain rfl := shorter clean longer ends
    exact ⟨by rw [longer, List.append_nil], (List.cons.inj ends).2.symm⟩

theorem BufferedInput.upcoming_prefix_append (input : BufferedInput) (first second : Bytes) :
    (input.append first).upcoming <+: (input.append (first ++ second)).upcoming := by
  simp only [upcoming, append, ByteBuffer.toList_append]
  split
  · rw [← List.append_assoc]
    exact ⟨_, List.drop_append.symm⟩
  · exact List.prefix_rfl

namespace Machine

/-- The machine behind an operation, whatever its sink. -/
def undergo (machine : Machine BufferedInput τ) : Operation → Machine BufferedInput τ
  | .append chunk => machine.queue chunk
  | .step => machine.step.1
  | .run budget => (machine.run budget).value.machine

/-- The machine behind a schedule, whatever its sink. -/
def follow (machine : Machine BufferedInput τ) (operations : List Operation) :
    Machine BufferedInput τ :=
  operations.foldl undergo machine

end Machine

namespace LineReader

variable {reader : LineReader}

section Run

variable {origin machine : Machine BufferedInput τ} {fed : Bytes} {stage : Stage}
  {spot : Label → Nat} (installed : reader.Installed origin.memory spot)

include installed

/-- A loop comes to the end of the line, or it waits and has drawn all its input. -/
theorem Underway.settles (underway : reader.Underway origin fed stage machine) :
    ∃ count final, Machine.Commits count machine final ∧
      ((∃ line head, reader.Underway origin fed (.done line head) final) ∨
      ∃ next later, final.step = (next, .ok (some .inputExhausted)) ∧
        reader.Underway origin fed later next ∧ later.reads = true ∧
        next.source.upcoming = [] ∧ next.steps = final.steps) := by
  -- The steps are counted, and each byte that can be seen takes four of them.
  generalize left : origin.steps + 4 * (seen (origin.source.append fed).upcoming).length -
    machine.steps = room
  induction room using Nat.strongRecOn generalizing stage machine with
  | ind room ih =>
    by_cases ended : ∃ line head, stage = .done line head
    · obtain ⟨line, head, rfl⟩ := ended
      exact ⟨0, machine, .stay machine, .inl ⟨line, head, underway⟩⟩
    · have going : ∀ line head, stage ≠ .done line head := fun line head same =>
        ended ⟨line, head, same⟩
      have proceeds := underway.step installed going
      rcases stepped : machine.step with ⟨next, outcome⟩
      rw [stepped] at proceeds
      cases proceeds with
      | onward moved =>
        have counted : next.steps = machine.steps + 1 := by
          have one := Machine.steps_of_committed (congrArg Prod.snd stepped)
          rwa [stepped] at one
        have bound := moved.steps_le
        obtain ⟨count, final, commits, settled⟩ := ih _ (by omega) moved rfl
        exact ⟨count + 1, final, .step stepped commits, settled⟩
      | waiting moved reads drained steps =>
        exact ⟨0, machine, .stay machine, .inr ⟨next, _, stepped, moved, reads, drained, steps⟩⟩

/-- A loop whose line is complete takes it, wherever it stands. -/
theorem Underway.takes {line rest : Bytes} (underway : reader.Underway origin fed stage machine)
    (complete : (origin.source.append fed).upcoming = line ++ lineFeed :: rest)
    (clean : lineFeed ∉ line) :
    ∃ count final, Machine.Commits count machine final ∧
      reader.Took origin fed line rest final := by
  obtain ⟨count, final, commits, settled⟩ := underway.settles installed
  rcases settled with ⟨found, head, done⟩ | ⟨next, later, _, waits, reads, drained, _⟩
  · have latest : Latest found lineFeed head := done.sound
    have drawn := done.source.upcoming
    rw [complete, Stage.taken, List.append_assoc, List.singleton_append] at drawn
    obtain ⟨rfl, rfl⟩ := line_unique clean latest.clean drawn
    exact ⟨count, final, commits, done.took⟩
  · have drawn := waits.source.upcoming
    rw [complete, drained, List.append_nil] at drawn
    refine absurd ?_ (Stage.lineFeed_not_mem_of_reads waits.sound reads)
    rw [← drawn]
    simp

/-- A loop whose line is not complete halts with all its input drawn. -/
theorem Underway.halts (underway : reader.Underway origin fed stage machine)
    (incomplete : lineFeed ∉ (origin.source.append fed).upcoming) :
    ∃ next later, reader.Underway origin fed later next ∧ later.reads = true ∧
      next.source.upcoming = [] ∧
      ∀ budget, next.steps - machine.steps < budget →
        (machine.run budget).value.outcome = .ok (some .inputExhausted) ∧
          (machine.run budget).value.machine = next := by
  obtain ⟨count, final, commits, settled⟩ := underway.settles installed
  rcases settled with ⟨line, head, done⟩ | ⟨next, later, halted, waits, reads, drained, steps⟩
  · exact absurd rfl (done.ne_done incomplete line head)
  · refine ⟨next, later, waits, reads, drained, ?_⟩
    intro budget enough
    have stopped : final.step.2 ≠ .ok none := by rw [halted]; nofun
    rw [steps, commits.steps, Nat.add_sub_cancel_left] at enough
    obtain ⟨outcome, last⟩ := commits.run_eq stopped enough
    rw [outcome, last, halted]
    exact ⟨rfl, rfl⟩

/-- While the line is not complete, no step leads out of the loop. -/
theorem Underway.after (underway : reader.Underway origin fed stage machine)
    (incomplete : lineFeed ∉ (origin.source.append fed).upcoming) (count : Nat) :
    ∃ later, reader.Underway origin fed later (machine.after count) := by
  induction count generalizing stage machine with
  | zero => exact ⟨stage, underway⟩
  | succ count ih =>
    have proceeds := underway.step installed (underway.ne_done incomplete)
    rcases stepped : machine.step with ⟨next, outcome⟩
    rw [stepped] at proceeds
    rw [Machine.after, stepped]
    cases proceeds with
    | onward moved => exact ih moved
    | waiting moved _ _ _ => exact ih moved

/-- So no schedule that has not completed the line does. -/
theorem Underway.follow (underway : reader.Underway origin fed stage machine)
    {operations : List Operation}
    (incomplete : lineFeed ∉
      (origin.source.append (fed ++ operations.flatMap Operation.chunk)).upcoming) :
    ∃ later, reader.Underway origin (fed ++ operations.flatMap Operation.chunk) later
      (machine.follow operations) := by
  induction operations generalizing fed stage machine with
  | nil => exact ⟨stage, by rwa [List.flatMap_nil, List.append_nil]⟩
  | cons operation rest ih =>
    rw [List.flatMap_cons, ← List.append_assoc] at incomplete ⊢
    have earlier : lineFeed ∉ (origin.source.append (fed ++ operation.chunk)).upcoming :=
      fun member => incomplete
        ((origin.source.upcoming_prefix_append _ (rest.flatMap Operation.chunk)).subset member)
    obtain ⟨later, moved⟩ : ∃ later, reader.Underway origin (fed ++ operation.chunk) later
        (machine.undergo operation) := by
      cases operation with
      | append chunk => exact ⟨stage, underway.queue chunk⟩
      | step =>
        rw [Operation.chunk, List.append_nil] at earlier ⊢
        exact underway.after installed earlier 1
      | run budget =>
        rw [Operation.chunk, List.append_nil] at earlier ⊢
        obtain ⟨count, same⟩ := machine.runFrom_eq_after budget 0 []
        rw [Machine.undergo, Machine.run, same]
        exact underway.after installed earlier count
    exact ih moved incomplete

end Run

/-- A program that was built and loaded has its input loop at `reader`, and the cells of the loop
are as they were loaded. From the start of the loop, a line that is complete is taken in four steps
for each byte that can be seen. A line that is not complete makes the machine halt with its input
used up. What comes of a line does not depend on the pieces in which it came, with steps and runs in
between. -/
theorem line_taken {program : List Directive} {image : Bytes} {words : List UInt16}
    (built : (Assembly.ofProgram program).image = .ok image)
    (accepted : Image.decode image = .ok words)
    (emitted : (reader.start, reader.directive) ∈ Directive.located 0 program)
    {machine : Machine BufferedInput τ}
    (unmodified : ∀ offset < 16, machine.memory.word (reader.start + offset) =
      (Memory.ofWords words.toArray).word (reader.start + offset))
    (counter : machine.pc = .ofNat reader.start) :
    (∀ line rest, machine.source.upcoming = line ++ lineFeed :: rest → lineFeed ∉ line →
      ∃ final, Machine.Commits (4 * (seen (line ++ [lineFeed])).length) machine final ∧
        reader.Took machine [] line rest final) ∧
    (lineFeed ∉ machine.source.upcoming →
      ∃ last, reader.Keeps machine last ∧ last.source.upcoming = [] ∧
        last.source.contents = (machine.source.contents.1,
          machine.source.contents.2 + machine.source.upcoming.length) ∧
        ∀ budget, 4 * (seen machine.source.upcoming).length < budget →
          (machine.run budget).value.outcome = .ok (some .inputExhausted) ∧
            (machine.run budget).value.machine = last) ∧
    ∀ (operations : List Operation) (chunk line rest : Bytes),
      lineFeed ∉ (machine.source.append (operations.flatMap Operation.chunk)).upcoming →
      (machine.source.append (operations.flatMap Operation.chunk ++ chunk)).upcoming =
        line ++ lineFeed :: rest → lineFeed ∉ line →
      ∃ count final whole,
        Machine.Commits count ((machine.follow operations).queue chunk) final ∧
        Machine.Commits (4 * (seen (line ++ [lineFeed])).length)
          (machine.queue (operations.flatMap Operation.chunk ++ chunk)) whole ∧
        reader.Took machine (operations.flatMap Operation.chunk ++ chunk) line rest whole ∧
        final = { whole with source := final.source } ∧
        final.source.contents = whole.source.contents := by
  obtain ⟨resolved, fits⟩ := Assembly.words_of_image built accepted
  obtain ⟨_, lies⟩ := (Assembly.lies_ofProgram resolved fits).of_located emitted
  have installed := (reader.installed_of_lies lies).congr reader unmodified
  have start := underway_enter counter
  have counted {count : Nat} {fed line rest : Bytes} {early final : Machine BufferedInput τ}
      (commits : Machine.Commits count early final) (fresh : early.steps = machine.steps)
      (took : reader.Took machine fed line rest final) :
      count = 4 * (seen (line ++ [lineFeed])).length := by
    have steps := commits.steps
    rw [took.steps, fresh] at steps
    omega
  refine ⟨?_, ?_, ?_⟩
  · intro line rest complete clean
    rw [← BufferedInput.upcoming_append_nil] at complete
    obtain ⟨count, final, commits, took⟩ := start.takes installed complete clean
    obtain rfl := counted commits rfl took
    exact ⟨final, commits, took⟩
  · intro incomplete
    rw [← BufferedInput.upcoming_append_nil] at incomplete
    obtain ⟨last, stage, waits, reads, drained, runs⟩ := start.halts installed incomplete
    have all : machine.source.upcoming = stage.taken := by
      have drawn := waits.source.upcoming
      rwa [drained, List.append_nil, BufferedInput.upcoming_append_nil] at drawn
    have steps := waits.steps
    rw [Stage.lag_of_reads reads, ← all] at steps
    refine ⟨last, waits.keeps, drained, ?_, fun budget enough => runs budget (by omega)⟩
    rw [waits.source.contents, List.append_nil, all]
  · intro operations chunk line rest incomplete complete clean
    obtain ⟨stage, resumed⟩ := start.follow installed incomplete
    obtain ⟨count, final, commits, took⟩ := (resumed.queue chunk).takes installed complete clean
    obtain ⟨count', whole, commits', took'⟩ := (start.queue _).takes installed complete clean
    obtain rfl := counted commits' rfl took'
    exact ⟨count, final, whole, commits, commits', took', took.eq took'⟩

/-- The input loop of the program that greets. -/
def ofGreeting : LineReader where
  start := 4
  first := 0
  scratch := 1
  flag := 2
  inside := by decide
  first_ne_scratch := by decide
  first_ne_flag := by decide
  scratch_ne_flag := by decide

/-- A greeted player who has typed one letter of a line. -/
def greeted (words : List UInt16) : Machine BufferedInput DiscardOutput :=
  .ofState { State.initial (.ofWords words.toArray) with pc := .ofNat 4 }
    (.ofText "g") ⟨0⟩ false

/-- The rest of the line comes in two pieces, with a run before and a step behind the first. -/
theorem line_taken_greeted :
    ∃ image words, (Assembly.ofProgram Directive.greetProgram).image = .ok image ∧
      Image.decode image = .ok words ∧
      (ofGreeting.start, ofGreeting.directive) ∈ Directive.located 0 Directive.greetProgram ∧
      ∃ count final whole,
        Machine.Commits count
          (((greeted words).follow [.run 9, .append [13], .step]).queue [10, 120]) final ∧
        Machine.Commits 8 ((greeted words).queue [13, 10, 120]) whole ∧
        ofGreeting.Took (greeted words) [13, 10, 120] [103, 13] [120] whole ∧
        final.toState = whole.toState := by
  obtain ⟨words, resolved, size⟩ :
      ∃ words, (Assembly.ofProgram (Directive.spelled 0 Directive.greetProgram)).words = .ok words ∧
        words.length = ((Directive.spelled 0 Directive.greetProgram).map Directive.size).sum := by
    apply Assembly.exists_words <;> decide +kernel
  rw [Assembly.ofProgram_spelled] at resolved
  have fits : words.length ≤ memorySize := by
    rw [size]
    decide +kernel
  obtain ⟨built, accepted⟩ := Assembly.image_of_words resolved fits
  have emitted : (ofGreeting.start, ofGreeting.directive) ∈
      Directive.located 0 Directive.greetProgram := .tail _ (.tail _ (.head _))
  have incomplete : lineFeed ∉ ((BufferedInput.ofText "g").append [13]).upcoming := by
    decide +kernel
  have complete : ((BufferedInput.ofText "g").append ([13] ++ [10, 120])).upcoming =
      [103, 13] ++ lineFeed :: [120] := by decide +kernel
  obtain ⟨_, _, pieces⟩ := line_taken built accepted emitted
    (show ∀ offset < 16, (greeted words).memory.word (4 + offset) = _ from fun _ _ => rfl) rfl
  obtain ⟨count, final, whole, resumed, commits, took, same, _⟩ :=
    pieces [.run 9, .append [13], .step] [10, 120] [103, 13] [120] incomplete complete (by decide)
  exact ⟨_, words, built, accepted, emitted, count, final, whole, resumed, commits, took,
    congrArg (fun machine => machine.toState) same⟩

end LineReader

end AdventureMachine
