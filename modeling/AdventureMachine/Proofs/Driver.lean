import AdventureMachine.Proofs.Compiler
import AdventureMachine.Proofs.RoomText

/-! Playing a compiled world. A player who waits for each answer and one who queues all commands
and then reads hear the same: what is taken from the output after a halt is the next answer that
was not taken yet, because an answer ends at the first prompt behind the cursor. -/
namespace AdventureMachine

open Text (lineFeed)

namespace Text

/-- The bytes that a guest sees of a command. -/
def heardBytes (command : String) : Bytes := ByteSource.seen (encode command)

/-- The line that a guest makes of a command: the character of each byte it sees. -/
def heard (command : String) : String := decode (heardBytes command)

theorem lineFeed_not_mem_heardBytes {command : String} (single : '\n' ∉ command.toList) :
    lineFeed ∉ heardBytes command := by
  intro member
  have sent : lineFeed ∈ encode command := (List.mem_filter.mp member).1
  have inside := byteChar_mem_of_mem_encode (by decide) sent
  rw [byteChar_lineFeed] at inside
  exact single inside

theorem seen_line (command : String) :
    ByteSource.seen (encode (command ++ "\n")) = heardBytes command ++ [lineFeed] := by
  have ending : ByteSource.seen (encode "\n") = [lineFeed] := by decide
  rw [encode_append, ByteSource.seen, List.filter_append]
  exact congrArg (heardBytes command ++ ·) ending

end Text

namespace World

/-- The event in which a player gets an answer: the machine waits for more. -/
def Answer.event (answer : Answer) : Event := ⟨answer.response, some .inputExhausted⟩

/-- The texts of a world can be told apart in what it says. -/
structure WellFormed (world : World) : Prop where
  narrow : world.Narrow
  intro : Preface world.intro
  places : ∀ place ∈ world.places, place.Legible
  named : ∀ place ∈ world.places, ∀ exit ∈ place.exits, exit.name ≠ ""
  messages : ∀ place ∈ world.places, ∀ exit ∈ place.exits, Preface exit.message
  replies : ∀ place ∈ world.places, ∀ deed ∈ place.deeds,
    Room.Headless deed.reply.toList ∧ Room.Promptless deed.reply.toList

theorem exitsNamed_of_legible {world : World} (legible : ∀ place ∈ world.places, place.Legible)
    (named : ∀ place ∈ world.places, ∀ exit ∈ place.exits, exit.name ≠ "") : world.ExitsNamed := by
  intro place member exit listed
  refine ⟨named place member exit listed, ?_⟩
  intro begins
  exact (legible place member).exits exit listed (List.mem_of_head? begins)

theorem WellFormed.exitsNamed {world : World} (formed : world.WellFormed) : world.ExitsNamed :=
  exitsNamed_of_legible formed.places formed.named

theorem preface_empty : Preface "" :=
  ⟨.inl rfl, Room.headless_of_head? (by decide), Room.promptless_of_not_mem (by decide)⟩

theorem preface_reply {reply : String} (headless : Room.Headless reply.toList)
    (promptless : Room.Promptless reply.toList) : Preface (reply ++ "\n\n") := by
  have gap : (reply ++ "\n\n").toList = reply.toList ++ '\n' :: ['\n'] := by
    rw [String.toList_append]
    rfl
  refine ⟨.inr ?_, ?_, ?_⟩
  · rw [gap]
    exact (List.suffix_cons _ _).trans (List.suffix_append _ _)
  · rw [gap]
    exact Room.headless_append (by decide) headless (Room.headless_of_head? (by decide))
  · rw [gap, Room.promptless_append_cons (by decide)]
    exact ⟨promptless, Room.promptless_of_not_mem (by decide)⟩

/-- Every answer of a well-formed world can be read. -/
theorem WellFormed.legible_respond {world : World} (formed : world.WellFormed) {here : Place}
    (member : here ∈ world.places) {line : String} {answer : Answer}
    (found : world.respond here line = some answer) :
    answer.Legible ∧ answer.place ∈ world.places := by
  rw [respond] at found
  split at found
  · rename_i exit passed
    obtain ⟨there, known, rfl⟩ := Option.map_eq_some_iff.mp found
    have inside := (place?_mem known).1
    exact ⟨⟨formed.messages here member exit (List.mem_of_find?_eq_some passed),
      fun _ => formed.places there inside, by simp⟩, inside⟩
  · split at found
    · rename_i deed done
      obtain ⟨there, known, rfl⟩ := Option.map_eq_some_iff.mp found
      have inside : there ∈ world.places := by
        cases target : deed.destination with
        | none =>
          rw [target] at known
          cases known
          exact member
        | some id =>
          rw [target] at known
          exact (place?_mem known).1
      obtain ⟨headless, promptless⟩ :=
        formed.replies here member deed (List.mem_of_find?_eq_some done)
      have worded : deed.reply ++ "\n\n" ≠ "" := by
        intro empty
        have none := congrArg String.toList empty
        rw [String.toList_append] at none
        exact absurd (List.append_eq_nil_iff.mp none).2 (by decide)
      exact ⟨⟨preface_reply headless promptless, fun _ => formed.places there inside,
        fun _ => worded⟩, inside⟩
    · cases found
      exact ⟨⟨preface_empty, fun _ => formed.places here member, by simp⟩, member⟩

theorem WellFormed.legible_converse {world : World} (formed : world.WellFormed) {here : Place}
    (member : here ∈ world.places) {lines : List String} {answers : List Answer}
    (found : world.converse here lines = some answers) : ∀ answer ∈ answers, answer.Legible := by
  induction lines generalizing here answers with
  | nil =>
    cases found
    exact List.forall_mem_nil _
  | cons line rest ih =>
    obtain ⟨answer, others, first, spoken, rfl⟩ := converse_cons_eq_some found
    obtain ⟨legible, inside⟩ := formed.legible_respond member first
    exact List.forall_mem_cons.mpr ⟨legible, ih inside spoken⟩

/-- The lines of a queue of commands. -/
theorem completeLines_commands {commands : List String}
    (single : ∀ command ∈ commands, '\n' ∉ command.toList) :
    completeLines (commands.flatMap fun command => Text.heardBytes command ++ [lineFeed]) =
      commands.map Text.heard := by
  induction commands with
  | nil => exact completeLines_of_clean (by simp)
  | cons command rest ih =>
    obtain ⟨first, others⟩ := List.forall_mem_cons.mp single
    rw [List.flatMap_cons, List.append_assoc, List.singleton_append,
      completeLines_append (Text.lineFeed_not_mem_heardBytes first), ih others, List.map_cons]
    rfl

end World

namespace Adventure

/-- Sends each command when the answer to the one before was read. -/
def oneByOne (budget : Nat) (game : Adventure) : List String → List (Except Error Event)
  | [] => []
  | command :: rest =>
    let (answer, game) := (cycle budget (game.send command)).value
    answer :: oneByOne budget game rest

/-- Reads a number of answers. -/
def answers (budget : Nat) (game : Adventure) : Nat → List (Except Error Event)
  | 0 => []
  | count + 1 =>
    let (answer, game) := (cycle budget game).value
    answer :: answers budget game count

/-- Sends all commands and then reads as many answers. -/
def queued (budget : Nat) (game : Adventure) (commands : List String) :
    List (Except Error Event) :=
  answers budget (commands.foldl send game) commands.length

variable {memory : Memory} {start : Nat} {unit : UInt8} {input output before after : Bytes}
  {taken : Int}

theorem hosts_send {game : Adventure}
    (hosts : Hosts memory game ⟨start, unit, input, output, taken⟩) (command : String) :
    Hosts memory (game.send command)
      ⟨start, unit, input ++ (Text.heardBytes command ++ [lineFeed]), output, taken⟩ := by
  refine ⟨hosts.memory, hosts.counter, hosts.unit, ?_, hosts.output, hosts.taken⟩
  rw [← Text.seen_line]
  exact hosts.source.append _

theorem hosts_foldl_send {game : Adventure}
    (hosts : Hosts memory game ⟨start, unit, input, output, taken⟩) (commands : List String) :
    Hosts memory (commands.foldl send game)
      ⟨start, unit, input ++ commands.flatMap fun command => Text.heardBytes command ++ [lineFeed],
        output, taken⟩ := by
  induction commands generalizing game input with
  | nil => rwa [List.flatMap_nil, List.append_nil]
  | cons command rest ih =>
    rw [List.flatMap_cons, ← List.append_assoc]
    exact ih (hosts_send hosts command)

/-- The answer behind the cursor is what is taken, and the cursor moves behind it. -/
theorem takeResponse_answer {sink : BufferedOutput} {answer : World.Answer}
    (legible : answer.Legible) (narrow : Text.Narrow answer.text)
    (held : sink.bytes = before ++ (Text.encode answer.text ++ after))
    (cursor : sink.cursor = before.length) :
    sink.takeResponse =
      (answer.text, { sink with cursor := (before ++ Text.encode answer.text).length }) := by
  have content : sink.buffer.toList = before ++ (Text.encode answer.text ++ after) := by
    rw [← ByteBuffer.bytes_eq]
    exact held
  have unread : sink.unread.toList = answer.text.toList ++ after.map Text.byteChar := by
    rw [BufferedOutput.unread, BufferedOutput.unreadBytes, ByteBuffer.suffixFrom_eq, content,
      cursor, Int.toNat_natCast, List.drop_left, Text.toList_decode, List.map_append,
      ← Text.toList_decode, narrow.decode_encode]
  have whole : answer.body ++ Room.prompt.toList = answer.text.toList := answer.toList_text.symm
  have size : sink.buffer.length =
      before.length + (answer.text.toList.length + after.length) := by
    rw [← ByteBuffer.length_toList, content, List.length_append, List.length_append,
      narrow.length_encode]
  have moved : min (sink.buffer.length : Int) (before.length + answer.text.toList.length) =
      (before ++ Text.encode answer.text).length := by
    rw [size, List.length_append, narrow.length_encode]
    omega
  simp only [BufferedOutput.takeResponse, unread, legible.splitAt?_text, whole,
    String.ofList_toList, BufferedOutput.consume, cursor, moved]

/-- A guest that waits after some steps while an answer is still to be taken gives it in one cycle
that leaves room for the steps, and has read all its input then. -/
theorem cycle_of_commits {game last : Adventure} {answer : World.Answer} {count : Nat}
    (legible : answer.Legible) (narrow : Text.Narrow answer.text)
    (commits : Machine.Commits count game last) (reads : Reads memory start)
    (hosts : Hosts memory last
      ⟨start, unit, [], before ++ (Text.encode answer.text ++ after), before.length⟩) :
    ∃ next,
      Hosts memory next ⟨start, unit, [], before ++ (Text.encode answer.text ++ after),
        (before ++ Text.encode answer.text).length⟩ ∧
      next.source.upcoming = [] ∧
      ∀ budget, count < budget → (cycle budget game).value = (.ok answer.event, next) := by
  obtain ⟨halted, stepped, hosted, drained⟩ := reads.step_exhausted hosts
  have took := takeResponse_answer legible narrow hosted.output hosted.taken
  have stopped : last.step.2 ≠ .ok none := by rw [stepped]; nofun
  refine ⟨{ halted with sink := halted.sink.takeResponse.2 }, ?_, drained, ?_⟩
  · rw [took]
    exact ⟨hosted.memory, hosted.counter, hosted.unit, hosted.source, hosted.output, rfl⟩
  · intro budget enough
    obtain ⟨outcome, same⟩ := commits.run_eq stopped enough
    rw [stepped] at outcome same
    simp only [cycle, Logged.value_bind, outcome, same, takeResponse, took, legible.parse_text]
    rfl

/-- A guest that gets to wait while an answer is still to be taken gives it in one cycle. -/
theorem cycle_of_leads {game : Adventure} {guest : Guest} {answer : World.Answer}
    (legible : answer.Legible) (narrow : Text.Narrow answer.text)
    (hosts : Hosts memory game guest) (reads : Reads memory start)
    (leads : Leads memory guest
      ⟨start, unit, [], before ++ (Text.encode answer.text ++ after), before.length⟩) :
    ∃ enough next,
      Hosts memory next ⟨start, unit, [], before ++ (Text.encode answer.text ++ after),
        (before ++ Text.encode answer.text).length⟩ ∧
      ∀ budget, enough ≤ budget → (cycle budget game).value = (.ok answer.event, next) := by
  obtain ⟨count, last, commits, reached⟩ := leads game hosts
  obtain ⟨next, hosted, _, cycled⟩ := cycle_of_commits legible narrow commits reads reached
  exact ⟨count + 1, next, hosted, cycled⟩

/-- After the last answer that was written, everything is taken. -/
theorem cycle_of_leads_last {game : Adventure} {guest : Guest} {answer : World.Answer}
    (legible : answer.Legible) (narrow : Text.Narrow answer.text)
    (hosts : Hosts memory game guest) (reads : Reads memory start)
    (leads : Leads memory guest
      ⟨start, unit, [], before ++ Text.encode answer.text, before.length⟩) :
    ∃ enough next,
      Hosts memory next ⟨start, unit, [], before ++ Text.encode answer.text,
        (before ++ Text.encode answer.text).length⟩ ∧
      ∀ budget, enough ≤ budget → (cycle budget game).value = (.ok answer.event, next) := by
  have nothing : Text.encode answer.text ++ [] = Text.encode answer.text := List.append_nil _
  have cycled := cycle_of_leads legible narrow hosts reads (nothing.symm ▸ leads)
  rwa [nothing] at cycled

/-- Answers that are written and not yet taken are read one after another. -/
theorem answers_of_leads {game : Adventure} {guest : Guest} {replies : List World.Answer}
    (legible : ∀ answer ∈ replies, answer.Legible)
    (narrow : ∀ answer ∈ replies, Text.Narrow answer.text)
    (hosts : Hosts memory game guest) (reads : Reads memory start)
    (leads : Leads memory guest ⟨start, unit, [],
      before ++ Text.encode (String.join (replies.map World.Answer.text)), before.length⟩) :
    ∃ enough, ∀ budget, enough ≤ budget →
      answers budget game replies.length = (replies.map World.Answer.event).map .ok := by
  induction replies generalizing game guest before with
  | nil => exact ⟨0, fun _ _ => rfl⟩
  | cons answer rest ih =>
    obtain ⟨first, others⟩ := List.forall_mem_cons.mp legible
    obtain ⟨spelled, remaining⟩ := List.forall_mem_cons.mp narrow
    rw [List.map_cons, String.join_cons, Text.encode_append] at leads
    obtain ⟨enough, next, hosted, cycled⟩ := cycle_of_leads first spelled hosts reads leads
    rw [← List.append_assoc] at hosted
    -- The guest waits from here on, so a later cycle halts at once and only takes an answer.
    obtain ⟨more, read⟩ := ih others remaining hosted (.refl _)
    refine ⟨max enough more, ?_⟩
    intro budget spent
    simp only [List.length_cons, answers, cycled budget (by omega), read budget (by omega),
      List.map_cons]

section Players

variable {world : World} {spot : Label → Nat} (playable : world.Playable)
  (formed : world.WellFormed) (stands : ∀ place ∈ world.places, place.Stands memory spot)
  {game : Adventure} {here : World.Place} {commands : List String} (member : here ∈ world.places)
  (single : ∀ command ∈ commands, '\n' ∉ command.toList)
  (hosts : Hosts memory game
    ⟨spot (World.nodeLabel here.id []), unit, [], before, before.length⟩)

include playable formed stands member single hosts

/-- A player who waits for each answer hears what the world answers. -/
theorem oneByOne_eq {replies : List World.Answer}
    (said : world.converse here (commands.map Text.heard) = some replies) :
    ∃ enough, ∀ budget, enough ≤ budget →
      oneByOne budget game commands = (replies.map World.Answer.event).map .ok := by
  induction commands generalizing game here unit before replies with
  | nil =>
    cases said
    exact ⟨0, fun _ _ => rfl⟩
  | cons command rest ih =>
    obtain ⟨first, others⟩ := List.forall_mem_cons.mp single
    obtain ⟨answer, found, known, narrow, leads⟩ := playable.leads_respond unit before
      before.length stands member (Text.lineFeed_not_mem_heardBytes first) []
    obtain ⟨reply, following, replied, later, rfl⟩ := World.converse_cons_eq_some said
    obtain rfl : answer = reply := Option.some.inj (found.symm.trans replied)
    have legible := (formed.legible_respond member replied).1
    have reads := (stands answer.place known).reads_node (.inl rfl)
    obtain ⟨enough, next, hosted, cycled⟩ := cycle_of_leads_last legible
      (playable.narrow_text known narrow) (hosts_send hosts command) reads leads
    obtain ⟨more, read⟩ := ih known others hosted later
    refine ⟨max enough more, ?_⟩
    intro budget spent
    simp only [oneByOne, cycled budget (by omega), read budget (by omega), List.map_cons]

/-- A player who sends everything first hears what the world answers. -/
theorem queued_eq :
    ∃ replies, world.converse here (commands.map Text.heard) = some replies ∧
      ∃ enough, ∀ budget, enough ≤ budget →
        queued budget game commands = (replies.map World.Answer.event).map .ok := by
  obtain ⟨replies, said, narrow, start, last, reads, leads⟩ := playable.leads_converse unit before
    before.length stands member
    (commands.flatMap fun command => Text.heardBytes command ++ [lineFeed])
  rw [World.completeLines_commands single] at said
  obtain ⟨enough, read⟩ := answers_of_leads (formed.legible_converse member said) narrow
    (hosts_foldl_send hosts commands) reads leads
  refine ⟨replies, said, enough, ?_⟩
  intro budget spent
  rw [queued, ← List.length_map Text.heard, ← World.length_converse said]
  exact read budget spent

end Players

/-- Of the events of a player who waits, the last one is the answer to all commands. -/
theorem commands_of_oneByOne {budget : Nat} {game : Adventure} {sent : List String}
    {events : List Event} (heard : oneByOne budget game sent = events.map .ok) (last : Event) :
    (commands budget game last sent).value.1 = .ok (events.getLastD last) := by
  induction sent generalizing game events last with
  | nil =>
    obtain rfl : events = [] := List.map_eq_nil_iff.mp heard.symm
    rfl
  | cons command rest ih =>
    obtain ⟨event, others, rfl, answer, later⟩ := List.map_eq_cons_iff.mp heard.symm
    simp only [commands, Logged.value_bind, ← answer, List.getLastD_cons]
    exact ih later.symm event

end Adventure

namespace World

theorem preface_of_plain {text : String} (ended : ['\n'] <:+ text.toList)
    (plain : ∀ row ∈ Room.rows text.toList, row.head? ≠ some '=') (quiet : 'W' ∉ text.toList) :
    Preface text :=
  ⟨.inr ended, Room.headless_of_head? plain, Room.promptless_of_not_mem quiet⟩

/-- A place can be read when none of its texts has the first letter of the prompt. -/
theorem Place.legible_of_plain {place : Place}
    (title : place.title.toList.all (!Text.isLineEnd ·) = true)
    (lines : ∀ line ∈ Text.lines place.description.toList, ¬ [':'] <:+ line)
    (ending : ¬ ['\n'] <:+ place.description.toList) (items : ∀ item ∈ place.items, '\n' ∉ item.toList)
    (exits : ∀ exit ∈ place.exits, '\n' ∉ exit.name.toList)
    (quiet : ∀ text ∈ place.title :: place.description ::
      (place.items ++ place.exits.map Exit.name), 'W' ∉ text.toList) : place.Legible :=
  ⟨by simpa using title, lines, ending, items, exits,
    fun text member => Room.promptless_of_not_mem (quiet text member)⟩

theorem wellFormed_twoRooms : twoRooms.WellFormed := by
  refine ⟨narrow_twoRooms, preface_of_plain (by decide) (by decide) (by decide), ?_, by decide, ?_, ?_⟩
  · refine List.forall_mem_cons.mpr ⟨?_, List.forall_mem_singleton.mpr ?_⟩
    · apply Place.legible_of_plain <;> decide
    · apply Place.legible_of_plain <;> decide
  · refine List.forall_mem_cons.mpr ⟨?_, List.forall_mem_singleton.mpr ?_⟩
    · exact List.forall_mem_singleton.mpr (preface_of_plain (by decide) (by decide) (by decide))
    · exact List.forall_mem_singleton.mpr preface_empty
  · refine List.forall_mem_cons.mpr ⟨?_, List.forall_mem_singleton.mpr (List.forall_mem_nil _)⟩
    exact List.forall_mem_singleton.mpr
      ⟨Room.headless_of_head? (by decide), Room.promptless_of_not_mem (by decide)⟩

/-- Playing a compiled world: the image loads, the first cycle describes the first place, and then
a player who sends the commands one by one and a player who queues them all get the same events,
the answers of the world. -/
theorem players_hear_answers {world : World} {image : Bytes} (compiled : world.compile = .ok image)
    (fits : image.length ≤ Image.maxBytes) (formed : world.WellFormed) (commands : List String)
    (single : ∀ command ∈ commands, '\n' ∉ command.toList) (tracing : Bool) :
    ∃ game opened start answers enough,
      (Adventure.ofImage image "" tracing).value = .ok game ∧
      world.place? world.start = some start ∧
      world.converse start (commands.map Text.heard) = some answers ∧
      ∀ budget, enough ≤ budget →
        (Adventure.cycle budget game).value =
          (.ok (Answer.event ⟨world.intro, start, true⟩), opened) ∧
        Adventure.oneByOne budget opened commands = (answers.map Answer.event).map .ok ∧
        Adventure.queued budget opened commands = (answers.map Answer.event).map .ok ∧
        (Adventure.commands budget opened Adventure.silence commands).value.1 =
          .ok ((answers.map Answer.event).getLastD Adventure.silence) := by
  obtain ⟨playable, memory, spot, start, loads, found, member, stands, opening⟩ :=
    loaded_of_compile compiled fits formed.narrow formed.exitsNamed
  have legible : Answer.Legible ⟨world.intro, start, true⟩ :=
    ⟨formed.intro, fun _ => formed.places start member, nofun⟩
  have narrow : Text.Narrow (Answer.text ⟨world.intro, start, true⟩) :=
    playable.narrow_text member formed.narrow.intro
  have silent : ByteSource.seen (Text.encode "") = [] := by decide
  have hosted := Machine.hosts_ofState memory (Text.encode "") tracing
  rw [silent] at hosted
  have told : Leads memory ⟨0, 0, [], [], 0⟩ ⟨spot (nodeLabel start.id []), 0, [],
      [] ++ Text.encode (Answer.text ⟨world.intro, start, true⟩), ([] : Bytes).length⟩ := opening []
  obtain ⟨enough, opened, hosts, cycled⟩ := Adventure.cycle_of_leads_last legible narrow hosted
    ((stands start member).reads_node (.inl rfl)) told
  obtain ⟨answers, said, more, queued⟩ :=
    Adventure.queued_eq playable formed stands member single hosts
  obtain ⟨most, waited⟩ := Adventure.oneByOne_eq playable formed stands member single hosts said
  refine ⟨_, opened, start, answers, max enough (max more most), loads _ _ tracing, found, said, ?_⟩
  intro budget spent
  have heard := waited budget (by omega)
  exact ⟨cycled budget (by omega), heard, queued budget (by omega),
    Adventure.commands_of_oneByOne heard Adventure.silence⟩

/-- A deed without a description, an exit with a message, and a line that says nothing. -/
theorem players_hear_answers_twoRooms :
    ∃ image game opened enough,
      twoRooms.compile = .ok image ∧ image.length ≤ Image.maxBytes ∧ twoRooms.WellFormed ∧
      (∀ command ∈ ["sit", "north", "wait"], '\n' ∉ command.toList) ∧
      (Adventure.ofImage image "" false).value = .ok game ∧
      ∀ budget, enough ≤ budget →
        (Adventure.cycle budget game).value =
          (.ok ⟨⟨"Hello.\n", some ⟨"Hall", "A hall.", ["orb"], ["north"]⟩⟩,
            some .inputExhausted⟩, opened) ∧
        Adventure.oneByOne budget opened ["sit", "north", "wait"] =
          Adventure.queued budget opened ["sit", "north", "wait"] ∧
        Adventure.queued budget opened ["sit", "north", "wait"] =
          [.ok ⟨⟨"You sit.\n\n", none⟩, some .inputExhausted⟩,
            .ok ⟨⟨"You go out.\n", some ⟨"Yard", "A yard.", [], ["south"]⟩⟩,
              some .inputExhausted⟩,
            .ok ⟨⟨"", some ⟨"Yard", "A yard.", [], ["south"]⟩⟩, some .inputExhausted⟩] := by
  obtain ⟨image, compiled, fits⟩ := twoRooms_compiles
  have single : ∀ command ∈ ["sit", "north", "wait"], '\n' ∉ command.toList := by decide
  obtain ⟨game, opened, start, answers, enough, loaded, found, said, played⟩ :=
    players_hear_answers compiled fits wellFormed_twoRooms ["sit", "north", "wait"] single false
  refine ⟨image, game, opened, enough, compiled, fits, wellFormed_twoRooms, single, loaded, ?_⟩
  intro budget spent
  obtain ⟨first, waited, queued, _⟩ := played budget spent
  have hall : (twoRooms.place? twoRooms.start).map Place.room =
      some ⟨"Hall", "A hall.", ["orb"], ["north"]⟩ := by decide +kernel
  have told : ((twoRooms.place? twoRooms.start).bind fun here =>
      (twoRooms.converse here (["sit", "north", "wait"].map Text.heard)).map
        (List.map Answer.response)) =
      some [⟨"You sit.\n\n", none⟩, ⟨"You go out.\n", some ⟨"Yard", "A yard.", [], ["south"]⟩⟩,
        ⟨"", some ⟨"Yard", "A yard.", [], ["south"]⟩⟩] := by decide +kernel
  rw [found, Option.map_some, Option.some.injEq] at hall
  rw [found, Option.bind_some, said, Option.map_some, Option.some.injEq] at told
  have events : answers.map Answer.event =
      (answers.map Answer.response).map fun response => ⟨response, some .inputExhausted⟩ := by
    rw [List.map_map]
    rfl
  rw [first, waited, queued, events, told, Answer.event, Answer.response, if_pos rfl, hall]
  exact ⟨rfl, rfl, rfl⟩

end World

end AdventureMachine
