import AdventureMachine.Proofs.Driver
import AdventureMachine.Proofs.Fork
import AdventureMachine.Proofs.Patience
import AdventureMachine.Proofs.Safety

/-! Trying commands on forks of a compiled world. A game waits at a place when it stands at the
matcher of the place, has read all its input and had all its output taken. A command that is tried
there gets the answer of the world, and the fork waits at the place of the answer: a run without a
limit has the patience for every exit that a place can list. -/
namespace AdventureMachine

open Text (lineFeed)

/-- How a walk ends that can fail, keeps a state and logs what it does. -/
def ending {ς α : Type} (walk : StateT ς (ExceptT Error Logged) α) (state : ς) :
    Except Error (α × ς) :=
  (walk.run state).run.value

section Ending

variable {ς α β : Type} (state : ς)

@[simp]
theorem ending_pure (value : α) :
    ending (pure value : StateT ς (ExceptT Error Logged) α) state = .ok (value, state) := rfl

@[simp]
theorem ending_get :
    ending (get : StateT ς (ExceptT Error Logged) ς) state = .ok (state, state) := rfl

@[simp]
theorem ending_lift (action : Logged (Except Error α)) :
    ending (StateT.lift (ExceptT.mk action) : StateT ς (ExceptT Error Logged) α) state =
      action.value.map (·, state) := by
  obtain ⟨answer, journal⟩ := action
  cases answer with
  | error error => rfl
  | ok value => rfl

theorem ending_bind (walk : StateT ς (ExceptT Error Logged) α)
    (next : α → StateT ς (ExceptT Error Logged) β) :
    ending (walk >>= next) state =
      (ending walk state).bind fun (value, later) => ending (next value) later := by
  rw [ending, StateT.run_bind, ExceptT.run_bind, Logged.value_bind, ending]
  cases (walk.run state).run.value with
  | error error => rfl
  | ok result => rfl

end Ending

/-- Fewer entries are counted when one of them no longer is and no others come in. -/
theorem countP_lt_countP {α : Type} {listed : List α} {fewer more : α → Bool} {entry : α}
    (member : entry ∈ listed) (counted : more entry = true) (dropped : fewer entry = false)
    (others : ∀ other ∈ listed, fewer other = true → more other = true) :
    listed.countP fewer < listed.countP more := by
  obtain ⟨front, back, rfl⟩ := List.append_of_mem member
  obtain ⟨first, last⟩ := List.forall_mem_append.mp others
  have before := List.countP_mono_left first
  have behind := List.countP_mono_left (List.forall_mem_cons.mp last).2
  simp only [List.countP_append, List.countP_cons, counted, dropped, ↓reduceIte,
    Bool.false_eq_true]
  omega

namespace BufferedInput

variable {input : BufferedInput}

theorem upcoming_append_of_pending (drained : input.pending = 0) (chunk : Bytes) :
    (input.append chunk).upcoming = chunk := by
  have cursor : input.cursor = input.buffer.toList.length := by
    rw [ByteBuffer.length_toList]
    unfold pending at drained
    omega
  rw [upcoming, append, if_pos (by simp only [cursor]; omega), ByteBuffer.toList_append, cursor,
    Int.toNat_natCast, List.drop_left]

/-- Nothing is pending exactly when nothing is ahead and all that is queued next will be seen. -/
theorem pending_eq_zero_iff : input.pending = 0 ↔ Offers input [] ∧ input.upcoming = [] := by
  constructor
  · intro drained
    refine ⟨?_, ?_⟩
    · intro chunk
      rw [visible, upcoming_append_of_pending drained]
      rfl
    · have none := upcoming_append_of_pending drained []
      rwa [upcoming_append_nil] at none
  · rintro ⟨offers, ahead⟩
    have next := offers [lineFeed]
    have start : 0 ≤ input.cursor := by
      by_contra negative
      rw [visible, upcoming, append, if_neg negative] at next
      cases next
    rw [upcoming, if_pos start, List.drop_eq_nil_iff, ByteBuffer.length_toList] at ahead
    have inside : input.cursor.toNat < (input.buffer.append [lineFeed]).toList.length := by
      by_contra beyond
      rw [visible, upcoming, append, if_pos start, List.drop_eq_nil_of_le (Nat.le_of_not_lt beyond)]
        at next
      cases next
    rw [ByteBuffer.toList_append, List.length_append, ByteBuffer.length_toList,
      List.length_singleton] at inside
    unfold pending
    omega

end BufferedInput

theorem BufferedOutput.length_bytes (output : BufferedOutput) :
    output.bytes.length = output.length := by
  rw [bytes, ByteBuffer.bytes_eq, ByteBuffer.length_toList]
  rfl

section Blocks

variable {memory : Memory} {spot : Label → Nat} {start stop : Nat}

theorem Lies.stop_of_written {text : List UInt16}
    (lies : Lies memory spot start (text.map fun unit => .op .output [.literal unit.toNat]) stop) :
    stop = start + 2 * text.length := by
  rw [lies.stop_eq, Directive.sum_size_written]

theorem Lies.stop_of_nothing (lies : Lies memory spot start [] stop) : start = stop := by
  cases lies
  rfl

/-- Code with an instruction in it takes up room. -/
theorem Lies.start_lt_stop {program : List Directive} {opcode : Number} {arguments : List Argument}
    (lies : Lies memory spot start program stop)
    (member : Directive.instruction opcode arguments ∈ program) : start < stop := by
  induction program generalizing start with
  | nil => cases member
  | cons directive rest ih =>
    cases lies with
    | label _ behind => exact ih behind (by simpa using member)
    | instruction _ behind =>
      have next := behind.start_le
      omega
    | data _ behind =>
      exact Nat.lt_of_le_of_lt (Nat.le_add_right _ _) (ih behind (by simpa using member))
    | print written behind =>
      exact Nat.lt_of_le_of_lt written.start_le (ih behind (by simpa using member))
    | readLine written behind =>
      exact Nat.lt_of_le_of_lt written.start_le (ih behind (by simpa using member))

/-- Parts that each take up room are no more than there is room. -/
theorem Lies.length_le {α : Type} {code : α → List Directive} {parts : List α}
    (lies : Lies memory spot start (parts.flatMap code) stop)
    (some : ∀ part, ∃ opcode arguments, Directive.instruction opcode arguments ∈ code part) :
    start + parts.length ≤ stop := by
  induction parts generalizing start with
  | nil => exact lies.start_le
  | cons part rest ih =>
    rw [List.flatMap_cons] at lies
    obtain ⟨middle, first, others⟩ := Lies.split lies
    obtain ⟨opcode, arguments, member⟩ := some part
    have room := first.start_lt_stop member
    have remaining := ih others
    rw [List.length_cons]
    omega

/-- A guest that reads overwrites the unit it has read before, so it does not matter what its
machine holds there. -/
theorem Reads.commits_of_leads {machine : Adventure} {input output : Bytes} {taken : Int}
    {last : Guest} (reads : Reads memory start)
    (hosts : Hosts memory { machine with registers := machine.registers.put 1 0 }
      ⟨start, 0, input, output, taken⟩)
    (leads : Leads memory ⟨start, 0, input, output, taken⟩ last) (ahead : input ≠ [])
    (consumed : last.input = []) :
    ∃ count next, Machine.Commits count machine next ∧ Hosts memory next last := by
  obtain ⟨byte, rest, rfl⟩ := List.exists_cons_of_ne_nil ahead
  obtain ⟨count, next, commits, hosted⟩ := leads _ hosts
  refine ⟨count, next, ?_, hosted⟩
  cases commits with
  | stay _ =>
    have same := hosts.source.visible.symm.trans hosted.source.visible
    rw [consumed] at same
    cases same
  | @step count _ middle _ committed rest =>
    obtain ⟨source, answered, _⟩ : ∃ source,
        ByteSource.readVisible machine.source = (.ok (some byte), source) ∧ _ := hosts.source.read
    have overwritten : (machine.registers.put 1 0).put 1 byte.toUInt16 =
        machine.registers.put 1 byte.toUInt16 := by
      apply Registers.ext_get
      intro index
      simp only [Registers.get_put]
      split <;> rfl
    have fetched := State.fetch_of_holds hosts.counter (hosts.memory ▸ reads) rfl
    have stepped : machine.step = machine.perform (start + 2) (.receive 1) :=
      Machine.step_of_plan fetched (plan_readNext _)
    have reset := hosts.step reads rfl (plan_readNext _)
    simp only [Machine.perform, answered, overwritten] at stepped reset
    exact .step ((stepped.trans reset.symm).trans committed) rest

end Blocks

namespace World

variable {world : World} {image : Bytes} {words : List UInt16} {here : Place} {game : Adventure}

/-- The game waits at the prompt of a place: the world is in memory, the next thing to be read is
the first unit of a line, no input is pending and no output is unread. -/
structure Waits (world : World) (image : Bytes) (here : Place) (game : Adventure) : Prop where
  memory : (Image.decode image).map (fun words => Memory.ofWords words.toArray) = .ok game.memory
  counter : game.pc = .ofNat ((Assembly.ofProgram world.program).spot (nodeLabel here.id []))
  drained : game.source.pending = 0
  taken : game.sink.cursor = game.sink.length

theorem Waits.fork (waits : world.Waits image here game) : world.Waits image here game.fork := by
  have length (bytes : Bytes) : (ByteBuffer.ofList bytes).length = bytes.length := by
    rw [← ByteBuffer.length_toList, ByteBuffer.toList_ofList]
  have queued : game.source.buffer.bytes.length = game.source.buffer.length := by
    rw [ByteBuffer.bytes_eq, ByteBuffer.length_toList]
  have drained := waits.drained
  have taken := waits.taken
  refine ⟨waits.memory, waits.counter, ?_, ?_⟩
  · simp only [BufferedInput.pending] at drained
    simp only [Adventure.fork, Machine.rewire, BufferedInput.clone, BufferedInput.ofBytes,
      BufferedInput.pending, length, queued]
    omega
  · simp only [Adventure.fork, Machine.rewire, BufferedOutput.clone, BufferedOutput.ofBytes,
      BufferedOutput.length, length, game.sink.length_bytes, taken, Int.min_self]

theorem Waits.tidy (waits : world.Waits image here game) : game.Tidy := by
  have drained := waits.drained
  have taken := waits.taken
  constructor
  · rw [Within, BufferedInput.contents, ByteBuffer.length_toList]
    unfold BufferedInput.pending at drained
    omega
  · rw [Within, BufferedOutput.contents, ByteBuffer.length_toList]
    exact Int.le_of_eq taken

/-- The program of the world was built and fits into memory. -/
structure Installed (world : World) (words : List UInt16) : Prop where
  built : (Assembly.ofProgram world.program).words = .ok words
  fits : words.length ≤ memorySize

theorem installed_of_compile (compiled : world.compile = .ok image)
    (fits : image.length ≤ Image.maxBytes) :
    ∃ words, Image.decode image = .ok words ∧ world.Installed words := by
  obtain ⟨_, words, built, rfl⟩ := compile_ok compiled
  exact ⟨words, Image.decode_encode fits, built, Image.length_encode_le_iff.mp fits⟩

/-- The site of a world in memory. -/
def site (world : World) (words : List UInt16) : Site :=
  Assembly.site world.program words world.Lists

theorem Waits.held (waits : world.Waits image here game) (decoded : Image.decode image = .ok words) :
    game.memory = (world.site words).memory := by
  have memory := waits.memory
  rw [decoded] at memory
  exact (Except.ok.inj memory).symm

/-- A command that is sent to a waiting game is all that its guest will see. -/
theorem Waits.hosts_send (waits : world.Waits image here game)
    (decoded : Image.decode image = .ok words) (command : String) :
    Hosts (world.site words).memory
      { game.send command with registers := game.registers.put 1 0 }
      ⟨(world.site words).spot (nodeLabel here.id []), 0, Text.heardBytes command ++ [lineFeed],
        game.sink.bytes, game.sink.bytes.length⟩ := by
  refine ⟨waits.held decoded, waits.counter, ?_, ?_, rfl, ?_⟩
  · exact (Registers.get_put _ _ _ _).trans (if_pos rfl)
  · rw [← Text.seen_line]
    exact (BufferedInput.pending_eq_zero_iff.mp waits.drained).1.append _
  · rw [BufferedOutput.length_bytes]
    exact waits.taken

namespace Installed

variable (installed : world.Installed words)

include installed

theorem lies : Lies (world.site words).memory (world.site words).spot 0 world.program
    words.length :=
  Assembly.lies_ofProgram installed.built installed.fits

theorem closed : (world.site words).Closed world.program :=
  Assembly.closed_site installed.built world.utters_program world.ends_program

theorem reaches (name : Label) (placed : (world.site words).known name) :
    (world.site words).Lands ((world.site words).spot name) :=
  Site.lands_of_placed installed.lies installed.closed placed

theorem stands (member : here ∈ world.places) :
    here.Stands (world.site words).memory (world.site words).spot := by
  obtain ⟨_, _, places⟩ := Lies.split installed.lies
  obtain ⟨_, _, code⟩ := places.of_mem_flatMap member
  exact stands_of_lies code

theorem lands_node (member : here ∈ world.places) :
    (world.site words).Lands ((world.site words).spot (nodeLabel here.id [])) := by
  apply installed.reaches
  have root : .label (nodeLabel here.id []) ∈ dispatch here := by
    rw [dispatch_eq, node_eq]
    exact List.mem_append_left _ List.mem_cons_self
  have inside : .label (nodeLabel here.id []) ∈ world.program := by
    refine List.mem_append_right _ (List.mem_flatMap.mpr ⟨here, member, ?_⟩)
    exact List.mem_append_left _ (List.mem_append_left _ (List.mem_append_right _ root))
  exact List.mem_flatMap.mpr ⟨_, inside, List.mem_singleton_self _⟩

/-- The matcher of every place takes up room, so there are no more places than memory cells. -/
theorem length_places : world.places.length ≤ memorySize := by
  obtain ⟨middle, _, places⟩ := Lies.split installed.lies
  have room := places.length_le fun place => by
    have read : readNext ∈ dispatch place := by
      rw [dispatch_eq, node_eq]
      exact List.mem_append_left _ (List.mem_cons_of_mem _ List.mem_cons_self)
    exact ⟨_, _, List.mem_append_left _ (List.mem_append_left _ (List.mem_append_right _ read))⟩
  have fits := installed.fits
  omega

/-- The program describes a place, so a description is no longer than memory. -/
theorem length_render (member : here ∈ world.places) :
    2 * (Text.units here.render).length < memorySize := by
  have stands := installed.stands member
  obtain ⟨middle, written, behind⟩ := stands.description.printed
  have node := stands.node_inside (.inl rfl)
  rw [← Lies.stop_of_nothing behind, written.stop_of_written] at node
  omega

end Installed

theorem length_name_le {exit : Exit} (listed : exit ∈ here.exits) :
    exit.name.toList.length ≤ here.render.toList.length := by
  have named : exit.name ∈ here.exits.map Exit.name := List.mem_map_of_mem listed
  have some : (here.exits.map Exit.name).isEmpty = false := by
    rw [List.isEmpty_eq_false_iff]
    exact List.ne_nil_of_mem named
  have row : exit.name.toList <:+: (renderList (exitsHeader here.exits.length)
      (here.exits.map Exit.name)).toList := by
    have entry : exit.name.toList <:+: Room.entryLine exit.name.toList ++ ['\n'] :=
      ⟨['-', ' '], ['\n'], rfl⟩
    have rows : Room.entryLine exit.name.toList ++ ['\n'] <:+:
        ((here.exits.map Exit.name).map String.toList).flatMap
          fun entry => Room.entryLine entry ++ ['\n'] :=
      List.infix_of_mem_flatten (List.mem_map_of_mem (List.mem_map_of_mem named))
    rw [Room.toList_renderList, if_neg (by rw [some]; decide)]
    exact (entry.trans rows).trans ⟨(exitsHeader here.exits.length).toList ++ ['\n'], ['\n'], by simp⟩
  refine row.length_le.trans ?_
  rw [here.toList_render, Place.below]
  simp only [List.length_append, List.length_cons]
  omega

theorem patience_le {ahead : Nat} (short : ahead < memorySize) :
    patience ahead ≤ Machine.unlimited := by
  have limit : Machine.unlimited = 4611686018427387904 := by decide
  have words : UInt16.size = 65536 := rfl
  have cells : memorySize = 32768 := rfl
  rw [patience, limit, words, cells]
  omega

section Cycle

variable (installed : world.Installed words) (decoded : Image.decode image = .ok words)
  (playable : world.Playable)

include installed decoded playable

/-- A game that comes to wait with one answer to be taken gives it in a cycle without a limit, and
then waits at the place of the answer. -/
theorem cycle_waits {answer : Answer} {last : Adventure} {count : Nat} {unit : UInt8}
    {before : Bytes} (legible : answer.Legible) (known : answer.place ∈ world.places)
    (narrow : Text.Narrow answer.prelude) (safe : (world.site words).Safe game)
    (short : game.source.upcoming.length < memorySize)
    (commits : Machine.Commits count game last)
    (hosts : Hosts (world.site words).memory last
      ⟨(world.site words).spot (nodeLabel answer.place.id []), unit, [],
        before ++ Text.encode answer.text, before.length⟩) :
    ∃ next, (Adventure.cycle Machine.unlimited game).value = (.ok answer.event, next) ∧
      world.Waits image answer.place next := by
  have reads := (installed.stands known).reads_node (.inl rfl)
  obtain ⟨_, halted, _⟩ := reads.step_exhausted hosts
  have stopped : last.step.2 ≠ .ok none := by rw [halted]; nofun
  have soon := safe.commits_lt installed.reaches commits stopped
  have nothing : Text.encode answer.text ++ [] = Text.encode answer.text := List.append_nil _
  obtain ⟨next, hosted, drained, cycled⟩ := Adventure.cycle_of_commits legible
    (playable.narrow_text known narrow) commits reads (nothing.symm ▸ hosts)
  rw [nothing] at hosted
  refine ⟨next, cycled _ (Nat.lt_of_lt_of_le soon (patience_le short)), ?_, hosted.counter, ?_, ?_⟩
  · rw [decoded, hosted.memory]
    rfl
  · exact BufferedInput.pending_eq_zero_iff.mpr ⟨hosted.source, drained⟩
  · have shown : next.sink.bytes = before ++ Text.encode answer.text := hosted.output
    rw [← BufferedOutput.length_bytes, shown]
    exact hosted.taken

/-- A command that is tried where a game waits gets the answer of the world. -/
theorem waits_attempt (waits : world.Waits image here game) (member : here ∈ world.places)
    {command : String} (single : '\n' ∉ command.toList)
    (short : (Text.encode (command ++ "\n")).length < memorySize) {answer : Answer}
    (said : world.respond here (Text.heard command) = some answer) (legible : answer.Legible) :
    ∃ fork, (game.attempt Machine.unlimited command).value = .ok (answer.event, fork) ∧
      world.Waits image answer.place fork := by
  have waiting := waits.fork
  obtain ⟨found, replied, known, narrow, leads⟩ := playable.leads_respond 0 game.fork.sink.bytes
    game.fork.sink.bytes.length (fun _ => installed.stands) member
    (Text.lineFeed_not_mem_heardBytes single) []
  obtain rfl : found = answer := Option.some.inj (replied.symm.trans said)
  obtain ⟨count, last, commits, hosted⟩ := ((installed.stands member).reads_node
    (.inl rfl)).commits_of_leads (waiting.hosts_send decoded command) leads (by simp) rfl
  have ahead : (game.fork.send command).source.upcoming = Text.encode (command ++ "\n") :=
    BufferedInput.upcoming_append_of_pending waiting.drained _
  have safe : (world.site words).Safe (game.fork.send command) :=
    ⟨_, ⟨waiting.held decoded, waiting.counter⟩, installed.lands_node member⟩
  obtain ⟨next, cycled, reached⟩ := cycle_waits installed decoded playable legible known narrow safe
    (by rwa [ahead]) commits hosted
  refine ⟨next, ?_, reached⟩
  simp only [Adventure.attempt, Logged.value_bind, cycled]
  rfl

/-- Every exit that a place lists can be tried. -/
theorem waits_attempt_exit (waits : world.Waits image here game) (member : here ∈ world.places)
    {exit : Exit} (listed : exit ∈ here.exits) (single : '\n' ∉ exit.name.toList) {answer : Answer}
    (said : world.respond here (Text.heard exit.name) = some answer) (legible : answer.Legible) :
    ∃ fork, (game.attempt Machine.unlimited exit.name).value = .ok (answer.event, fork) ∧
      world.Waits image answer.place fork := by
  have narrow := (playable.fit here member).narrow
  have line : Text.Narrow (exit.name ++ "\n") :=
    (Text.narrow_append _ _).mpr ⟨narrow.names exit listed, by decide⟩
  have described := installed.length_render member
  rw [narrow.render.units_eq, List.length_map] at described
  have name := length_name_le listed
  refine waits_attempt installed decoded playable waits member single ?_ said legible
  have newline : "\n".toList.length = 1 := by decide
  have cells : memorySize = 32768 := rfl
  rw [line.length_encode, String.toList_append, List.length_append]
  omega

/-- A new game waits at the first place when it has told its opening. -/
theorem waits_opening (intro : Preface world.intro) (legible : ∀ place ∈ world.places, place.Legible)
    (tracing : Bool) :
    ∃ game start opened, (Adventure.ofImage image "" tracing).value = .ok game ∧
      world.place? world.start = some start ∧
      (Adventure.cycle Machine.unlimited game).value =
        (.ok (Answer.event ⟨world.intro, start, true⟩), opened) ∧
      world.Waits image start opened := by
  obtain ⟨start, found, member, _, opening⟩ := playable.leads_opening installed.lies
  have silent : ByteSource.seen (Text.encode "") = [] := by decide
  have hosted := Machine.hosts_ofState (world.site words).memory (Text.encode "") tracing
  rw [silent] at hosted
  obtain ⟨count, last, commits, reached⟩ := opening [] _ hosted
  have told : Hosts (world.site words).memory last
      ⟨(world.site words).spot (nodeLabel start.id []), 0, [],
        [] ++ Text.encode (Answer.text ⟨world.intro, start, true⟩), ([] : Bytes).length⟩ := reached
  have readable : Answer.Legible ⟨world.intro, start, true⟩ :=
    ⟨intro, fun _ => legible start member, nofun⟩
  have nothing : (BufferedInput.ofBytes (Text.encode "") 0).upcoming.length < memorySize := by
    decide
  have safe : (world.site words).Safe (.ofState (.initial (world.site words).memory)
      (.ofBytes (Text.encode "") 0) .empty tracing) :=
    ⟨0, ⟨rfl, rfl⟩, world.program, _, installed.lies, installed.closed⟩
  obtain ⟨opened, cycled, waits⟩ := cycle_waits installed decoded playable readable member
    playable.intro safe nothing commits told
  refine ⟨_, start, opened, ?_, found, cycled, waits⟩
  simp only [Adventure.ofImage, Machine.loggedOfImage, Machine.ofImage, decoded]
  rfl

end Cycle

section Exits

variable {exits : List Exit} {exit : Exit}

/-- The exits of a place that passes its checks begin differently. -/
theorem nodup_of_checkExits {ids : List String} {name : String} {initials found : List (List UInt16)}
    (checked : checkExits ids name initials exits = .ok found) :
    (exits.map Exit.initial).Nodup ∧ ∀ exit ∈ exits, exit.initial ∉ initials := by
  induction exits generalizing initials with
  | nil => exact ⟨List.nodup_nil, List.forall_mem_nil _⟩
  | cons exit rest ih =>
    rw [checkExits] at checked
    split at checked
    · cases checked
    · split at checked
      · cases checked
      · rename_i fresh
        obtain ⟨distinct, unmet⟩ := ih checked
        refine ⟨List.nodup_cons.mpr ⟨?_, distinct⟩, List.forall_mem_cons.mpr ⟨by simpa using fresh, ?_⟩⟩
        · intro again
          obtain ⟨other, listed, same⟩ := List.mem_map.mp again
          exact unmet other listed (by rw [same]; exact List.mem_cons_self)
        · exact fun other listed earlier => unmet other listed (List.mem_cons_of_mem _ earlier)

theorem nodup_initials (compiled : world.compile = .ok image) (member : here ∈ world.places) :
    (here.exits.map Exit.initial).Nodup := by
  have checked := (check_ok (compile_ok compiled).1).2 here member
  rw [Place.check] at checked
  cases passed : checkExits (world.places.map Place.id) here.id [] here.exits with
  | error problem =>
    rw [passed] at checked
    cases checked
  | ok initials => exact (nodup_of_checkExits passed).1

theorem head?_heard {name : String} {first : Char} (narrow : Text.Narrow name)
    (begins : name.toList.head? = some first) (plain : first ≠ '\r') :
    (Text.heard name).toList.head? = some first := by
  obtain ⟨rest, spelled⟩ := List.head?_eq_some_iff.mp begins
  have small : first.toNat ≤ 0xff := narrow first (by simp [spelled])
  have kept : (UInt8.ofNat first.toNat : UInt8) ≠ ByteSource.carriageReturn := by
    intro same
    have read := Text.byteChar_ofNat small
    rw [same] at read
    exact plain (read.symm.trans (by decide))
  rw [Text.heard, Text.toList_decode, Text.heardBytes, narrow.encode_eq, spelled, List.map_cons,
    ByteSource.seen, List.filter_cons_of_pos (by simpa using kept), List.map_cons, List.head?_cons,
    Text.byteChar_ofNat small]

/-- Taking an exit by its name tells its message and leads to its destination. -/
theorem respond_exit (distinct : (here.exits.map Exit.initial).Nodup) (narrow : here.Narrow)
    (listed : exit ∈ here.exits) (named : exit.name ≠ "")
    (plain : exit.name.toList.head? ≠ some '\r') :
    world.respond here (Text.heard exit.name) =
      (world.place? exit.destination).map fun there => ⟨exit.message, there, true⟩ := by
  obtain ⟨first, begins⟩ : ∃ first, exit.name.toList.head? = some first := by
    cases spelled : exit.name.toList with
    | nil => exact absurd (String.toList_eq_nil_iff.mp spelled) named
    | cons first rest => exact ⟨first, rfl⟩
  have unlike : first ≠ '\r' := fun same => plain (same ▸ begins)
  obtain ⟨rest, line⟩ :=
    List.head?_eq_some_iff.mp (head?_heard (narrow.names exit listed) begins unlike)
  have opens (other : Exit) :
      other.opens (Text.heard exit.name) = (other.name.toList.head? == some first) := by
    simp only [Exit.opens, line]
  have found : here.exits.find? (·.opens (Text.heard exit.name)) = some exit := by
    cases passed : here.exits.find? (·.opens (Text.heard exit.name)) with
    | none =>
      have closed := List.find?_eq_none.mp passed exit listed
      rw [opens, begins] at closed
      exact absurd (BEq.rfl) closed
    | some other =>
      have among := List.mem_of_find?_eq_some passed
      have opened := List.find?_some passed
      rw [opens, beq_iff_eq] at opened
      -- Both names begin with the same character, so they have the same initial.
      have same : other.initial = exit.initial := by
        rw [Exit.initial, Exit.initial, (narrow.names other among).units_eq,
          (narrow.names exit listed).units_eq, List.take_one, List.take_one, List.head?_map,
          List.head?_map, opened, begins]
      rw [List.inj_on_of_nodup_map distinct among listed same]
  rw [respond, found]

/-- In a compiled world every exit can be taken by its name. -/
theorem exists_respond_exit (compiled : world.compile = .ok image) (playable : world.Playable)
    (member : here ∈ world.places) (listed : exit ∈ here.exits)
    (plain : exit.name.toList.head? ≠ some '\r') :
    ∃ there, world.place? exit.destination = some there ∧ there ∈ world.places ∧
      world.respond here (Text.heard exit.name) = some ⟨exit.message, there, true⟩ := by
  obtain ⟨there, found, known, _⟩ := playable.exit_place member listed
  have fit := playable.fit here member
  refine ⟨there, found, known, ?_⟩
  rw [respond_exit (nodup_initials compiled member) fit.narrow listed (fit.named exit listed).1
    plain, found]
  rfl

end Exits

end World

end AdventureMachine
