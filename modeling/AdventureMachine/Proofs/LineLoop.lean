import AdventureMachine.Proofs.Fork
import AdventureMachine.Proofs.Guest

/-! The loop that takes a line of input. It keeps the first byte that it sees and reads on to the
line feed. How far it has got, and what its registers hold there, is told from the bytes it has
drawn from its input. Each step leads from one such stage to the next, or waits for more input. -/
namespace AdventureMachine

open ByteSource (carriageReturn seen)
open Text (lineFeed)

variable {τ : Type}

namespace ByteSource

theorem seen_append (front back : Bytes) : seen (front ++ back) = seen front ++ seen back :=
  List.filter_append ..

theorem seen_returns (count : Nat) : seen (List.replicate count carriageReturn) = [] := by
  rw [seen, List.filter_replicate]
  rfl

theorem seen_visible {byte : UInt8} (visible : byte ≠ carriageReturn) : seen [byte] = [byte] := by
  simp [seen, visible]

theorem lineFeed_not_mem_of_blank {bytes : Bytes} (blank : seen bytes = []) : lineFeed ∉ bytes := by
  intro member
  have kept : lineFeed ∈ seen bytes := List.mem_filter.mpr ⟨member, by decide⟩
  rw [blank] at kept
  exact List.not_mem_nil kept

theorem lineFeed_not_mem_returns (count : Nat) :
    lineFeed ∉ List.replicate count carriageReturn :=
  lineFeed_not_mem_of_blank (seen_returns count)

end ByteSource

namespace BufferedInput

/-- What is left of an input that was fed these bytes when those were drawn from it, whatever is
queued later. -/
structure Drawn (origin : BufferedInput) (fed taken : Bytes) (input : BufferedInput) : Prop where
  contents : input.contents = (origin.contents.1 ++ fed, origin.contents.2 + taken.length)
  ahead : ∀ chunk,
    (origin.append (fed ++ chunk)).upcoming = taken ++ (input.append chunk).upcoming

variable {origin input rest : BufferedInput} {fed taken : Bytes} {byte : UInt8} {count : Nat}

theorem drawn_nothing (origin : BufferedInput) : Drawn origin [] [] origin where
  contents := by simp
  ahead := fun _ => rfl

theorem Drawn.upcoming (drawn : Drawn origin fed taken input) :
    (origin.append fed).upcoming = taken ++ input.upcoming := by
  have now := drawn.ahead []
  rwa [List.append_nil, upcoming_append_nil] at now

theorem Drawn.append (drawn : Drawn origin fed taken input) (chunk : Bytes) :
    Drawn origin (fed ++ chunk) taken (input.append chunk) where
  contents := by rw [contents_append, drawn.contents, List.append_assoc]
  ahead := by
    intro later
    rw [List.append_assoc, drawn.ahead, upcoming_append_append]

theorem Drawn.one (drawn : Drawn origin fed taken input)
    (answer : ByteSource.readByte input = (.ok (some byte), rest)) :
    Drawn origin fed (taken ++ [byte]) rest where
  contents := by
    obtain ⟨answers, left⟩ := input.readByte_eq
    rw [answer] at answers left
    rw [left, ← Except.ok.inj answers, drawn.contents, List.length_append]
    simp [Int.add_assoc]
  ahead := by
    intro chunk
    rw [drawn.ahead, upcoming_append_of_read chunk answer, List.append_assoc]
    rfl

theorem Drawn.skips (drawn : Drawn origin fed taken input)
    (skips : ByteSource.Skips count input rest) :
    Drawn origin fed (taken ++ List.replicate count carriageReturn) rest := by
  induction skips generalizing taken with
  | none _ => rwa [List.replicate_zero, List.append_nil]
  | one answer _ ih =>
    have later := ih (drawn.one answer)
    rwa [List.append_assoc, List.singleton_append, ← List.replicate_succ] at later

/-- A read draws some carriage returns and then a byte that is none, or all that there is. -/
theorem Drawn.read (drawn : Drawn origin fed taken input) :
    ∃ count rest,
      (∃ byte, byte ≠ carriageReturn ∧
        ByteSource.readVisible input = (.ok (some byte), rest) ∧
        Drawn origin fed (taken ++ List.replicate count carriageReturn ++ [byte]) rest) ∨
      (ByteSource.readVisible input = (.ok none, rest) ∧ rest.upcoming = [] ∧
        Drawn origin fed (taken ++ List.replicate count carriageReturn) rest) := by
  obtain ⟨visible, count, middle, skips, last⟩ := ByteSource.readVisible_answers input
  have skipped := drawn.skips skips
  cases held : middle.upcoming with
  | nil =>
    rw [readByte_of_nil held] at last
    obtain ⟨answer, same⟩ := Prod.mk.inj last
    exact ⟨count, middle, .inr ⟨Prod.ext answer.symm same.symm, held, skipped⟩⟩
  | cons byte others =>
    obtain ⟨first, _⟩ := readByte_of_cons held
    obtain ⟨answer, same⟩ := Prod.mk.inj (first.symm.trans last)
    refine ⟨count, _, .inl ⟨byte, ?_, Prod.ext answer.symm same.symm, skipped.one first⟩⟩
    rintro rfl
    exact visible answer.symm

end BufferedInput

/-- Cells that hold the same words hold the same code. -/
theorem Memory.Holds.congr {memory other : Memory} {start offset room : Nat} {words : List UInt16}
    (held : memory.Holds (start + offset) words)
    (same : ∀ index < room, other.word (start + index) = memory.word (start + index))
    (fits : offset + words.length ≤ room) : other.Holds (start + offset) words where
  inside := held.inside
  word := by
    intro index word found
    have bound := (List.getElem?_eq_some_iff.mp found).1
    rw [← held.word index word found, Nat.add_assoc]
    exact same _ (by omega)

namespace Machine

/-- The machine with more input behind what it has. -/
def queue (machine : Machine BufferedInput τ) (chunk : Bytes) : Machine BufferedInput τ :=
  { machine with source := machine.source.append chunk }

end Machine

/-- A loop that takes a line: where it starts, and the registers for the first byte, for the byte
just read and for the outcome of a test. -/
structure LineReader where
  start : Nat
  first : Fin registerCount
  scratch : Fin registerCount
  flag : Fin registerCount
  inside : start + 16 < memorySize
  first_ne_scratch : first ≠ scratch
  first_ne_flag : first ≠ flag
  scratch_ne_flag : scratch ≠ flag

namespace LineReader

variable (reader : LineReader)

/-- The directive that is short for the loop. -/
def directive : Directive :=
  .readLine (.register reader.first) (.register reader.scratch) (.register reader.flag)

/-- The loop lies in memory, each instruction at its place. -/
structure Installed (memory : Memory) (spot : Label → Nat) : Prop where
  enter : memory.Holds reader.start [Opcode.input.word, (Argument.register reader.first).word spot]
  copy : memory.Holds (reader.start + 2) [Opcode.set.word,
    (Argument.register reader.scratch).word spot, (Argument.register reader.first).word spot]
  test : memory.Holds (reader.start + 5) [Opcode.eq.word,
    (Argument.register reader.flag).word spot, (Argument.register reader.scratch).word spot,
    .ofNat newline]
  branch : memory.Holds (reader.start + 9) [Opcode.jt.word,
    (Argument.register reader.flag).word spot, .ofNat (reader.start + 16)]
  next : memory.Holds (reader.start + 12) [Opcode.input.word,
    (Argument.register reader.scratch).word spot]
  back : memory.Holds (reader.start + 14) [Opcode.jmp.word, .ofNat (reader.start + 5)]

/-- The loop that a directive is short for lies where the directive does. -/
theorem installed_of_lies {memory : Memory} {spot : Label → Nat} {rest : List Directive}
    {stop : Nat} (lies : Lies memory spot reader.start (reader.directive :: rest) stop) :
    reader.Installed memory spot := by
  cases lies with
  | readLine written _ =>
    have copied := written.op.2
    obtain ⟨loop, tested⟩ := copied.op.2.labelled
    have branched := tested.op.2
    have jumped := branched.op.2.op.2
    have done := jumped.op.2.labelled.1
    have branch := branched.op.1
    have back := jumped.op.1
    simp only [List.map_cons, List.map_nil, Argument.word, Argument.cell, Cell.resolved, loop,
      done] at branch back
    exact ⟨written.op.1, copied.op.1, tested.op.1, branch, branched.op.2.op.1, back⟩

theorem Installed.congr {memory other : Memory} {spot : Label → Nat}
    (installed : reader.Installed memory spot)
    (same : ∀ offset < 16,
      other.word (reader.start + offset) = memory.word (reader.start + offset)) :
    reader.Installed other spot where
  enter := Memory.Holds.congr (show memory.Holds (reader.start + 0) _ from installed.enter) same
    (by simp)
  copy := installed.copy.congr same (by simp)
  test := installed.test.congr same (by simp)
  branch := installed.branch.congr same (by simp)
  next := installed.next.congr same (by simp)
  back := installed.back.congr same (by simp)

section Store

variable (registers : Registers) (first scratch flag value : UInt16)

/-- Registers in which those of the loop hold these words. -/
def store : Registers :=
  ((registers.put reader.first first).put reader.scratch scratch).put reader.flag flag

theorem get_first : (reader.store registers first scratch flag).get reader.first = first := by
  rw [store, Registers.get_put, Registers.get_put, Registers.get_put,
    if_neg reader.first_ne_flag.symm, if_neg reader.first_ne_scratch.symm, if_pos rfl]

theorem get_scratch :
    (reader.store registers first scratch flag).get reader.scratch = scratch := by
  rw [store, Registers.get_put, Registers.get_put, if_neg reader.scratch_ne_flag.symm, if_pos rfl]

theorem get_flag : (reader.store registers first scratch flag).get reader.flag = flag := by
  rw [store, Registers.get_put, if_pos rfl]

theorem get_other {index : Fin registerCount}
    (other : index ∉ [reader.first, reader.scratch, reader.flag]) :
    (reader.store registers first scratch flag).get index = registers.get index := by
  simp only [List.mem_cons, List.not_mem_nil, or_false, not_or] at other
  rw [store, Registers.get_put, Registers.get_put, Registers.get_put, if_neg (Ne.symm other.2.2),
    if_neg (Ne.symm other.2.1), if_neg (Ne.symm other.1)]

/-- Registers are told by what they hold in the registers of the loop and in the others. -/
theorem eq_store {other : Registers} (held : other.get reader.first = first)
    (read : other.get reader.scratch = scratch) (tested : other.get reader.flag = flag)
    (rest : ∀ index ∉ [reader.first, reader.scratch, reader.flag],
      other.get index = registers.get index) :
    other = reader.store registers first scratch flag := by
  apply Registers.ext_get
  intro index
  by_cases named : index ∈ [reader.first, reader.scratch, reader.flag]
  · simp only [List.mem_cons, List.not_mem_nil, or_false] at named
    rcases named with rfl | rfl | rfl
    · rw [held, get_first]
    · rw [read, get_scratch]
    · rw [tested, get_flag]
  · rw [rest index named, get_other _ _ _ _ _ named]

theorem put_first_scratch : (registers.put reader.first first).put reader.scratch scratch =
    reader.store registers first scratch (registers.get reader.flag) := by
  apply reader.eq_store
  · rw [Registers.get_put, if_neg reader.first_ne_scratch.symm, Registers.get_put, if_pos rfl]
  · rw [Registers.get_put, if_pos rfl]
  · rw [Registers.get_put, if_neg reader.scratch_ne_flag, Registers.get_put,
      if_neg reader.first_ne_flag]
  · intro index other
    simp only [List.mem_cons, List.not_mem_nil, or_false, not_or] at other
    rw [Registers.get_put, if_neg (Ne.symm other.2.1), Registers.get_put,
      if_neg (Ne.symm other.1)]

theorem put_scratch : (reader.store registers first scratch flag).put reader.scratch value =
    reader.store registers first value flag := by
  apply reader.eq_store
  · rw [Registers.get_put, if_neg reader.first_ne_scratch.symm, get_first]
  · rw [Registers.get_put, if_pos rfl]
  · rw [Registers.get_put, if_neg reader.scratch_ne_flag, get_flag]
  · intro index other
    have different : reader.scratch ≠ index := fun same => other (by simp [← same])
    rw [Registers.get_put, if_neg different, get_other _ _ _ _ _ other]

theorem put_flag : (reader.store registers first scratch flag).put reader.flag value =
    reader.store registers first scratch value := by
  apply reader.eq_store
  · rw [Registers.get_put, if_neg reader.first_ne_flag.symm, get_first]
  · rw [Registers.get_put, if_neg reader.scratch_ne_flag.symm, get_scratch]
  · rw [Registers.get_put, if_pos rfl]
  · intro index other
    have different : reader.flag ≠ index := fun same => other (by simp [← same])
    rw [Registers.get_put, if_neg different, get_other _ _ _ _ _ other]

end Store

/-- How far a loop has got with a line. The bytes drawn so far tell all that it holds. -/
inductive Stage where
  /-- About to read the first byte. -/
  | enter (taken : Bytes)
  | copy (line : Bytes) (byte : UInt8)
  | test (line : Bytes) (byte head : UInt8) (flag : UInt16)
  | branch (line : Bytes) (byte head : UInt8)
  /-- About to read a further byte. -/
  | next (taken : Bytes) (head : UInt8) (scratch : UInt16)
  | back (line : Bytes) (byte head : UInt8)
  | done (line : Bytes) (head : UInt8)

/-- Behind a line that is not yet complete a byte came in; `head` came in first of all. -/
structure Latest (line : Bytes) (byte head : UInt8) : Prop where
  clean : lineFeed ∉ line
  visible : byte ≠ carriageReturn
  heads : (seen (line ++ [byte])).head? = some head

namespace Stage

/-- Where the loop stands. -/
def offset : Stage → Nat
  | enter _ => 0
  | copy .. => 2
  | test .. => 5
  | branch .. => 9
  | next .. => 12
  | back .. => 14
  | done .. => 16

/-- How many steps are left to the four that the last byte takes. -/
def lag : Stage → Nat
  | copy .. | back .. => 3
  | test .. => 2
  | branch .. => 1
  | enter _ | next .. | done .. => 0

/-- Whether the loop is about to read. -/
def reads : Stage → Bool
  | enter _ | next .. => true
  | _ => false

/-- The bytes drawn so far. -/
def taken : Stage → Bytes
  | enter taken | next taken .. => taken
  | copy line byte | test line byte .. | branch line byte _ | back line byte _ => line ++ [byte]
  | done line _ => line ++ [lineFeed]

/-- What is known of the bytes drawn so far. -/
def Sound : Stage → Prop
  | enter taken => seen taken = []
  | copy line byte => seen line = [] ∧ byte ≠ carriageReturn
  | test line byte head _ | branch line byte head => Latest line byte head
  | next taken head _ => lineFeed ∉ taken ∧ (seen taken).head? = some head
  | back line byte head => Latest line byte head
  | done line head => Latest line lineFeed head

theorem lineFeed_not_mem_of_reads {stage : Stage} (sound : stage.Sound)
    (reads : stage.reads = true) : lineFeed ∉ stage.taken := by
  cases stage with
  | enter taken => exact ByteSource.lineFeed_not_mem_of_blank sound
  | next taken head scratch => exact sound.1
  | copy | test | branch | back | done => cases reads

theorem lag_of_reads {stage : Stage} (reads : stage.reads = true) : stage.lag = 0 := by
  cases stage with
  | enter | next => rfl
  | copy | test | branch | back | done => cases reads

end Stage

/-- What the registers hold at a stage. -/
def registersAt (origin : Registers) : Stage → Registers
  | .enter _ => origin
  | .copy _ byte => origin.put reader.first byte.toUInt16
  | .test _ byte head flag => reader.store origin head.toUInt16 byte.toUInt16 flag
  | .branch _ byte head =>
    reader.store origin head.toUInt16 byte.toUInt16 (if byte = lineFeed then 1 else 0)
  | .next _ head scratch => reader.store origin head.toUInt16 scratch 0
  | .back _ byte head => reader.store origin head.toUInt16 byte.toUInt16 0
  | .done _ head => reader.store origin head.toUInt16 lineFeed.toUInt16 1

theorem get_registersAt (origin : Registers) (stage : Stage) {index : Fin registerCount}
    (other : index ∉ [reader.first, reader.scratch, reader.flag]) :
    (reader.registersAt origin stage).get index = origin.get index := by
  cases stage with
  | enter taken => rfl
  | copy line byte =>
    have different : reader.first ≠ index := fun same => other (by simp [← same])
    rw [registersAt, Registers.get_put, if_neg different]
  | test | branch | next | back | done => exact reader.get_other _ _ _ _ other

/-- What a machine keeps while it takes a line. -/
structure Keeps (origin final : Machine BufferedInput τ) : Prop where
  memory : final.memory = origin.memory
  stack : final.stack = origin.stack
  sink : final.sink = origin.sink
  tracing : final.tracing = origin.tracing
  registers : ∀ index ∉ [reader.first, reader.scratch, reader.flag],
    final.registers.get index = origin.registers.get index

/-- A machine that was fed these bytes has taken a line, and the rest is still ahead. -/
structure Took (origin : Machine BufferedInput τ) (fed line rest : Bytes)
    (final : Machine BufferedInput τ) : Prop extends reader.Keeps origin final where
  counter : final.pc = .ofNat (reader.start + 16)
  first : ∃ head, (seen (line ++ [lineFeed])).head? = some head ∧
    final.registers.get reader.first = head.toUInt16
  scratch : final.registers.get reader.scratch = 10
  flag : final.registers.get reader.flag = 1
  upcoming : final.source.upcoming = rest
  contents : final.source.contents =
    (origin.source.contents.1 ++ fed, origin.source.contents.2 + (line.length + 1))
  steps : final.steps = origin.steps + 4 * (seen (line ++ [lineFeed])).length
  lastHalt : final.lastHalt = none

section Took

variable {reader} {origin final whole : Machine BufferedInput τ} {fed line rest : Bytes}

theorem Took.registers_eq (took : reader.Took origin fed line rest final)
    (other : reader.Took origin fed line rest whole) : final.registers = whole.registers := by
  obtain ⟨head, heads, held⟩ := took.first
  obtain ⟨_, same, held'⟩ := other.first
  obtain rfl := Option.some.inj (heads.symm.trans same)
  rw [reader.eq_store _ _ _ _ held took.scratch took.flag took.registers,
    reader.eq_store _ _ _ _ held' other.scratch other.flag other.registers]

/-- Machines that took the same line differ at most in the storage of their input. -/
theorem Took.eq (took : reader.Took origin fed line rest final)
    (other : reader.Took origin fed line rest whole) :
    final = { whole with source := final.source } ∧
      final.source.contents = whole.source.contents := by
  refine ⟨?_, took.contents.trans other.contents.symm⟩
  have registers := took.registers_eq other
  have memory := took.memory.trans other.memory.symm
  have stack := took.stack.trans other.stack.symm
  have counter := took.counter.trans other.counter.symm
  have sink := took.sink.trans other.sink.symm
  have steps := took.steps.trans other.steps.symm
  have lastHalt := took.lastHalt.trans other.lastHalt.symm
  have tracing := took.tracing.trans other.tracing.symm
  obtain ⟨⟨_, _, _, _⟩, _, _, _, _, _⟩ := final
  obtain ⟨⟨_, _, _, _⟩, _, _, _, _, _⟩ := whole
  simp only at registers memory stack counter sink steps lastHalt tracing
  subst registers memory stack counter sink steps lastHalt tracing
  rfl

end Took

/-- A machine that was fed these bytes is at a stage of the loop. -/
structure Underway (origin : Machine BufferedInput τ) (fed : Bytes) (stage : Stage)
    (machine : Machine BufferedInput τ) : Prop where
  memory : machine.memory = origin.memory
  stack : machine.stack = origin.stack
  sink : machine.sink = origin.sink
  tracing : machine.tracing = origin.tracing
  sound : stage.Sound
  counter : machine.pc = .ofNat (reader.start + stage.offset)
  registers : machine.registers = reader.registersAt origin.registers stage
  source : origin.source.Drawn fed stage.taken machine.source
  steps : machine.steps + stage.lag = origin.steps + 4 * (seen stage.taken).length
  lastHalt : stage.reads = false → machine.lastHalt = none

/-- What a step of the loop comes to. -/
inductive Proceeds (origin : Machine BufferedInput τ) (fed : Bytes)
    (machine : Machine BufferedInput τ) : Machine BufferedInput τ × Machine.Outcome → Prop where
  | onward {stage : Stage} {next : Machine BufferedInput τ}
      (underway : reader.Underway origin fed stage next) :
      Proceeds origin fed machine (next, .ok none)
  | waiting {stage : Stage} {next : Machine BufferedInput τ}
      (underway : reader.Underway origin fed stage next) (reads : stage.reads = true)
      (drained : next.source.upcoming = []) (steps : next.steps = machine.steps) :
      Proceeds origin fed machine (next, .ok (some .inputExhausted))

section Step

variable {reader} {origin machine : Machine BufferedInput τ} {fed : Bytes} {stage later : Stage}
  {source : BufferedInput} {spot : Label → Nat}

theorem Underway.keeps (underway : reader.Underway origin fed stage machine) :
    reader.Keeps origin machine where
  memory := underway.memory
  stack := underway.stack
  sink := underway.sink
  tracing := underway.tracing
  registers := by
    intro index other
    rw [underway.registers, reader.get_registersAt _ _ other]

theorem Underway.took {line : Bytes} {head : UInt8}
    (underway : reader.Underway origin fed (.done line head) machine) :
    reader.Took origin fed line machine.source.upcoming machine where
  toKeeps := underway.keeps
  counter := underway.counter
  first := by
    have latest : Latest line lineFeed head := underway.sound
    exact ⟨head, latest.heads, by rw [underway.registers, registersAt, get_first]⟩
  scratch := by
    rw [underway.registers, registersAt, get_scratch]
    rfl
  flag := by rw [underway.registers, registersAt, get_flag]
  upcoming := rfl
  contents := by simpa [Stage.taken] using underway.source.contents
  steps := underway.steps
  lastHalt := underway.lastHalt rfl

theorem underway_enter (counter : origin.pc = .ofNat reader.start) :
    reader.Underway origin [] (.enter []) origin where
  memory := rfl
  stack := rfl
  sink := rfl
  tracing := rfl
  sound := rfl
  counter := counter
  registers := rfl
  source := BufferedInput.drawn_nothing _
  steps := rfl
  lastHalt := nofun

/-- Input that is queued leaves the loop where it is. -/
theorem Underway.queue (underway : reader.Underway origin fed stage machine) (chunk : Bytes) :
    reader.Underway origin (fed ++ chunk) stage (machine.queue chunk) :=
  { underway with source := underway.source.append chunk }

theorem Underway.commit {registers : Registers} {pc : Number}
    (underway : reader.Underway origin fed stage machine) (sound : later.Sound)
    (counter : pc = .ofNat (reader.start + later.offset))
    (held : registers = reader.registersAt origin.registers later)
    (drawn : origin.source.Drawn fed later.taken source)
    (counted : stage.lag + 4 * (seen later.taken).length =
      later.lag + 1 + 4 * (seen stage.taken).length) :
    reader.Underway origin fed later
      (Machine.commit { machine with source, registers } pc).1 where
  memory := underway.memory
  stack := underway.stack
  sink := underway.sink
  tracing := underway.tracing
  sound := sound
  counter := counter
  registers := held
  source := drawn
  steps := by
    have steps := underway.steps
    simp only [Machine.commit]
    omega
  lastHalt := fun _ => rfl

/-- A loop that waits has drawn nothing but carriage returns since it began to read. -/
theorem Underway.halt {count : Nat} (underway : reader.Underway origin fed stage machine)
    (taken : later.taken = stage.taken ++ List.replicate count carriageReturn)
    (sound : later.Sound) (offset : later.offset = stage.offset) (lag : later.lag = stage.lag)
    (held : reader.registersAt origin.registers later =
      reader.registersAt origin.registers stage)
    (drawn : origin.source.Drawn fed later.taken source) (reads : later.reads = true) :
    reader.Underway origin fed later
      (Machine.halt { machine with source } .inputExhausted).1 where
  memory := underway.memory
  stack := underway.stack
  sink := underway.sink
  tracing := underway.tracing
  sound := sound
  counter := by rw [offset]; exact underway.counter
  registers := by rw [held]; exact underway.registers
  source := drawn
  steps := by
    rw [taken, ByteSource.seen_append, ByteSource.seen_returns, List.append_nil, lag]
    exact underway.steps
  lastHalt := by
    intro other
    rw [reads] at other
    cases other

theorem Underway.steps_le (underway : reader.Underway origin fed stage machine) :
    machine.steps ≤ origin.steps + 4 * (seen (origin.source.append fed).upcoming).length := by
  have steps := underway.steps
  have drawn := underway.source.upcoming
  rw [drawn, ByteSource.seen_append, List.length_append]
  omega

/-- The end of the loop is reached with the end of the line only. -/
theorem Underway.ne_done (underway : reader.Underway origin fed stage machine)
    (incomplete : lineFeed ∉ (origin.source.append fed).upcoming) (line : Bytes) (head : UInt8) :
    stage ≠ .done line head := by
  rintro rfl
  apply incomplete
  rw [underway.source.upcoming]
  simp [Stage.taken]

variable [ByteSink τ]

/-- A read comes to a byte, or the input runs out. -/
theorem Underway.step_read {index : Fin registerCount}
    (underway : reader.Underway origin fed stage machine)
    (code : machine.memory.Holds (reader.start + stage.offset)
      [Opcode.input.word, (Argument.register index).word spot]) :
    ∃ count source,
      (∃ byte, byte ≠ carriageReturn ∧
        origin.source.Drawn fed (stage.taken ++ List.replicate count carriageReturn ++ [byte])
          source ∧
        machine.step = Machine.commit { machine with
          source
          registers := machine.registers.put index byte.toUInt16 }
          (.ofNat (reader.start + stage.offset + 2))) ∨
      (origin.source.Drawn fed (stage.taken ++ List.replicate count carriageReturn) source ∧
        source.upcoming = [] ∧
        machine.step = Machine.halt { machine with source } .inputExhausted) := by
  have stepped := Machine.step_of_holds underway.counter code rfl
    (machine.toState.plan_receive spot index)
  obtain ⟨count, source, found⟩ := underway.source.read
  refine ⟨count, source, ?_⟩
  rcases found with ⟨byte, visible, answered, drawn⟩ | ⟨answered, drained, drawn⟩
  · refine .inl ⟨byte, visible, drawn, ?_⟩
    rw [stepped]
    simp only [Machine.perform, answered]
    rfl
  · refine .inr ⟨drawn, drained, ?_⟩
    rw [stepped]
    simp only [Machine.perform, answered]

variable (installed : reader.Installed origin.memory spot)

include installed

theorem Underway.step_enter {taken : Bytes}
    (underway : reader.Underway origin fed (.enter taken) machine) :
    reader.Proceeds origin fed machine machine.step := by
  have blank : seen taken = [] := underway.sound
  obtain ⟨count, source, found⟩ := underway.step_read (underway.memory.symm ▸ installed.enter)
  have skipped : seen (taken ++ List.replicate count carriageReturn) = [] := by
    rw [ByteSource.seen_append, blank, ByteSource.seen_returns, List.append_nil]
  rcases found with ⟨byte, visible, drawn, stepped⟩ | ⟨drawn, drained, stepped⟩
  · have copy : (Stage.copy (taken ++ List.replicate count carriageReturn) byte).Sound :=
      ⟨skipped, visible⟩
    rw [stepped]
    refine .onward (underway.commit copy rfl ?_ drawn ?_)
    · rw [underway.registers]
      rfl
    · simp only [Stage.taken, Stage.lag]
      rw [ByteSource.seen_append, skipped, ByteSource.seen_visible visible, blank]
      rfl
  · rw [stepped]
    have enter : (Stage.enter (taken ++ List.replicate count carriageReturn)).Sound := skipped
    exact .waiting (underway.halt rfl enter rfl rfl rfl drawn rfl) rfl drained rfl

theorem Underway.step_next {taken : Bytes} {head : UInt8} {scratch : UInt16}
    (underway : reader.Underway origin fed (.next taken head scratch) machine) :
    reader.Proceeds origin fed machine machine.step := by
  obtain ⟨clean, heads⟩ := underway.sound
  obtain ⟨count, source, found⟩ := underway.step_read (underway.memory.symm ▸ installed.next)
  have skipped : seen (taken ++ List.replicate count carriageReturn) = seen taken := by
    rw [ByteSource.seen_append, ByteSource.seen_returns, List.append_nil]
  have unended : lineFeed ∉ taken ++ List.replicate count carriageReturn := by
    rw [List.mem_append, not_or]
    exact ⟨clean, ByteSource.lineFeed_not_mem_returns count⟩
  rcases found with ⟨byte, visible, drawn, stepped⟩ | ⟨drawn, drained, stepped⟩
  · have grown : seen (taken ++ List.replicate count carriageReturn ++ [byte]) =
        seen taken ++ [byte] := by
      rw [ByteSource.seen_append, skipped, ByteSource.seen_visible visible]
    have back : (Stage.back (taken ++ List.replicate count carriageReturn) byte head).Sound :=
      ⟨unended, visible, by rw [grown, List.head?_append, heads]; rfl⟩
    rw [stepped]
    refine .onward (underway.commit back rfl ?_ drawn ?_)
    · rw [underway.registers]
      exact reader.put_scratch _ _ _ _ _
    · simp only [Stage.taken, Stage.lag]
      rw [grown, List.length_append, List.length_singleton]
      omega
  · have next : (Stage.next (taken ++ List.replicate count carriageReturn) head scratch).Sound :=
      ⟨unended, by rw [skipped]; exact heads⟩
    rw [stepped]
    exact .waiting (underway.halt rfl next rfl rfl rfl drawn rfl) rfl drained rfl

theorem Underway.step_copy {line : Bytes} {byte : UInt8}
    (underway : reader.Underway origin fed (.copy line byte) machine) :
    reader.Proceeds origin fed machine machine.step := by
  have limits := word_limits
  have code := underway.memory.symm ▸ installed.copy
  have held : machine.registers.get reader.first = byte.toUInt16 := by
    rw [underway.registers, registersAt, Registers.get_put, if_pos rfl]
  have literal : byte.toUInt16.toNat ≤ maxLiteral := by
    have bound := byte.toNat_lt
    rw [UInt8.toNat_toUInt16]
    omega
  have planned := State.plan_copy spot reader.scratch reader.first held literal
  obtain ⟨blank, visible⟩ := underway.sound
  have heads : (seen (line ++ [byte])).head? = some byte := by
    rw [ByteSource.seen_append, blank, ByteSource.seen_visible visible]
    rfl
  have latest : (Stage.test line byte byte (origin.registers.get reader.flag)).Sound :=
    ⟨ByteSource.lineFeed_not_mem_of_blank blank, visible, heads⟩
  rw [Machine.step_of_holds underway.counter code rfl planned]
  refine .onward (underway.commit latest rfl ?_ underway.source rfl)
  rw [underway.registers]
  exact reader.put_first_scratch _ _ _

/-- The test finds out whether the byte just read ends the line. -/
theorem Underway.step_test {line : Bytes} {byte head : UInt8} {flag : UInt16}
    (underway : reader.Underway origin fed (.test line byte head flag) machine) :
    reader.Proceeds origin fed machine machine.step := by
  have code := underway.memory.symm ▸ installed.test
  have held : machine.registers.get reader.scratch = byte.toUInt16 := by
    rw [underway.registers, registersAt, get_scratch]
  have planned := State.plan_compare spot reader.flag reader.scratch held
    (show newline ≤ maxLiteral by decide)
  have latest : (Stage.branch line byte head).Sound := underway.sound
  rw [Machine.step_of_holds underway.counter code rfl planned]
  refine .onward (underway.commit latest rfl ?_ underway.source rfl)
  simp only [lineFeed_eq_iff]
  rw [underway.registers]
  exact reader.put_flag _ _ _ _ _

theorem Underway.step_branch {line : Bytes} {byte head : UInt8}
    (underway : reader.Underway origin fed (.branch line byte head) machine) :
    reader.Proceeds origin fed machine machine.step := by
  have code := underway.memory.symm ▸ installed.branch
  have held : machine.registers.get reader.flag = if byte = lineFeed then 1 else 0 := by
    rw [underway.registers, registersAt, get_flag]
  have planned := State.plan_branch_register spot reader.flag held reader.inside
  have stepped := Machine.step_of_holds underway.counter code rfl planned
  by_cases ends : byte = lineFeed
  · subst ends
    have done : (Stage.done line head).Sound := underway.sound
    rw [stepped, if_pos rfl]
    refine .onward (underway.commit done ?_ ?_ underway.source rfl)
    · exact congrArg Number.ofNat (toNat_ofNat_of_inside reader.inside)
    · rw [underway.registers]
      rfl
  · have latest : Latest line byte head := underway.sound
    have clean : lineFeed ∉ line ++ [byte] := by
      rw [List.mem_append, List.mem_singleton, not_or]
      exact ⟨latest.clean, Ne.symm ends⟩
    have next : (Stage.next (line ++ [byte]) head byte.toUInt16).Sound := ⟨clean, latest.heads⟩
    rw [stepped, if_neg ends]
    refine .onward (underway.commit next rfl ?_ underway.source rfl)
    rw [underway.registers, registersAt, registersAt, if_neg ends]

theorem Underway.step_back {line : Bytes} {byte head : UInt8}
    (underway : reader.Underway origin fed (.back line byte head) machine) :
    reader.Proceeds origin fed machine machine.step := by
  have code := underway.memory.symm ▸ installed.back
  have near : reader.start + 5 < memorySize := by
    have inside := reader.inside
    omega
  have planned := machine.toState.plan_jump near
  have latest : (Stage.test line byte head 0).Sound := underway.sound
  rw [Machine.step_of_holds underway.counter code rfl planned]
  refine .onward (underway.commit latest ?_ underway.registers underway.source rfl)
  exact congrArg Number.ofNat (toNat_ofNat_of_inside near)

/-- Unless the line is complete, the loop takes a step or waits. -/
theorem Underway.step (underway : reader.Underway origin fed stage machine)
    (going : ∀ line head, stage ≠ .done line head) :
    reader.Proceeds origin fed machine machine.step := by
  cases stage with
  | enter taken => exact underway.step_enter installed
  | copy line byte => exact underway.step_copy installed
  | test line byte head flag => exact underway.step_test installed
  | branch line byte head => exact underway.step_branch installed
  | next taken head scratch => exact underway.step_next installed
  | back line byte head => exact underway.step_back installed
  | done line head => exact absurd rfl (going line head)

end Step

end LineReader

end AdventureMachine
