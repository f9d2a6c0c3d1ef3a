import AdventureMachine.Proofs.Dispatch
import AdventureMachine.Proofs.ImageFormat

/-! The program of a world says what the world says. Every line of input that is complete takes the
guest from the matcher of one place to the matcher of the next with the answer written in between;
an unfinished line leaves it waiting. So a run of the compiled image writes the transcript. -/
namespace AdventureMachine

open Text (lineFeed)

variable {memory : Memory} {spot : Label → Nat} {start stop : Nat} {unit : UInt8}
  {input output : Bytes} {taken : Int}

theorem Lies.leads_text {text : String} {rest : List Directive}
    (lies : Lies memory spot start (.print (Text.units text) :: rest) stop)
    (narrow : Text.Narrow text) :
    ∃ middle, Lies memory spot middle rest stop ∧
      Leads memory ⟨start, unit, input, output, taken⟩
        ⟨middle, unit, input, output ++ Text.encode text, taken⟩ := by
  rw [← narrow.map_units]
  apply lies.leads_print
  intro value member
  exact Nat.le_trans (narrow.toNat_le member) (by decide)

/-- A text is written and the program goes on at a label. -/
theorem Lies.leads_text_jump {text : String} {target : Label} {rest : List Directive}
    (lies : Lies memory spot start
      (.print (Text.units text) :: .op .jmp [.label target] :: rest) stop)
    (narrow : Text.Narrow text) (inside : spot target < memorySize) :
    Leads memory ⟨start, unit, input, output, taken⟩
      ⟨spot target, unit, input, output ++ Text.encode text, taken⟩ := by
  obtain ⟨middle, jump, leads⟩ := lies.leads_text narrow
  exact leads.trans (jump.leads_jump inside)

namespace World

/-- A world whose ways all lead somewhere and whose places can be matched. -/
structure Playable (world : World) : Prop where
  intro : Text.Narrow world.intro
  start : world.start ∈ world.places.map Place.id
  exits : ∀ place ∈ world.places, ∀ exit ∈ place.exits,
    exit.destination ∈ world.places.map Place.id
  deeds : ∀ place ∈ world.places, ∀ deed ∈ place.deeds, ∀ destination,
    deed.destination = some destination → destination ∈ world.places.map Place.id
  fit : ∀ place ∈ world.places, place.Fit

section Check

variable {ids : List String} {place : Place}

theorem checkExits_ok {name : String} {initials found : List (List UInt16)} {exits : List Exit}
    (checked : checkExits ids name initials exits = .ok found) :
    ∀ exit ∈ exits, exit.destination ∈ ids := by
  induction exits generalizing initials with
  | nil => exact List.forall_mem_nil _
  | cons exit rest ih =>
    rw [checkExits] at checked
    split at checked
    · cases checked
    · rename_i known
      split at checked
      · cases checked
      · exact List.forall_mem_cons.mpr ⟨by simpa using known, ih checked⟩

theorem checkDeeds_ok {name : String} {initials : List (List UInt16)} {commands : List String}
    {deeds : List Deed} (checked : checkDeeds ids name initials commands deeds = .ok ()) :
    ∀ deed ∈ deeds, (deed.command ≠ "" ∧ '\n' ∉ deed.command.toList) ∧
      ∀ destination, deed.destination = some destination → destination ∈ ids := by
  induction deeds generalizing commands with
  | nil => exact List.forall_mem_nil _
  | cons deed rest ih =>
    rw [checkDeeds] at checked
    split at checked
    · cases checked
    · rename_i worded
      split at checked
      · cases checked
      · split at checked
        · cases checked
        · split at checked
          · cases checked
          · rename_i known
            refine List.forall_mem_cons.mpr ⟨⟨?_, ?_⟩, ih checked⟩
            · simpa using worded
            · rintro destination same
              simpa [same] using known

theorem Place.check_ok (checked : place.check ids = .ok ()) :
    (∀ exit ∈ place.exits, exit.destination ∈ ids) ∧
      ∀ deed ∈ place.deeds, (deed.command ≠ "" ∧ '\n' ∉ deed.command.toList) ∧
        ∀ destination, deed.destination = some destination → destination ∈ ids := by
  rw [Place.check] at checked
  cases exits : checkExits ids place.id [] place.exits with
  | error problem =>
    rw [exits] at checked
    cases checked
  | ok initials =>
    rw [exits] at checked
    exact ⟨checkExits_ok exits, checkDeeds_ok checked⟩

theorem forM_ok {α ε : Type} {listed : List α} {action : α → Except ε Unit}
    (succeeded : listed.forM action = .ok ()) : ∀ entry ∈ listed, action entry = .ok () := by
  induction listed with
  | nil => exact List.forall_mem_nil _
  | cons entry rest ih =>
    rw [List.forM] at succeeded
    cases first : action entry with
    | error failure =>
      rw [first] at succeeded
      cases succeeded
    | ok value =>
      rw [first] at succeeded
      exact List.forall_mem_cons.mpr ⟨first, ih succeeded⟩

theorem check_ok {world : World} (checked : world.check = .ok ()) :
    world.start ∈ world.places.map Place.id ∧
      ∀ place ∈ world.places, place.check (world.places.map Place.id) = .ok () := by
  rw [World.check] at checked
  simp only at checked
  split at checked
  · cases checked
  · rename_i known
    exact ⟨by simpa using known, forM_ok checked⟩

end Check

section Answers

variable {world : World} (playable : world.Playable)
  (stands : ∀ place ∈ world.places, place.Stands memory spot)

include playable

theorem Playable.exit_place {here : Place} (member : here ∈ world.places) {exit : Exit}
    (listed : exit ∈ here.exits) :
    ∃ there, world.place? exit.destination = some there ∧ there ∈ world.places ∧
      there.id = exit.destination := by
  obtain ⟨there, found⟩ := exists_place? (playable.exits here member exit listed)
  exact ⟨there, found, place?_mem found⟩

theorem Playable.deed_place {here : Place} (member : here ∈ world.places) {deed : Deed}
    (listed : deed ∈ here.deeds) :
    ∃ there, deed.destination.elim (some here) world.place? = some there ∧ there ∈ world.places ∧
      there.id = deed.destination.getD here.id := by
  cases goal : deed.destination with
  | none => exact ⟨here, rfl, member, rfl⟩
  | some destination =>
    obtain ⟨there, found⟩ := exists_place? (playable.deeds here member deed listed _ goal)
    exact ⟨there, found, place?_mem found⟩

theorem Playable.narrow_text {answer : Answer} (known : answer.place ∈ world.places)
    (narrow : Text.Narrow answer.prelude) : Text.Narrow answer.text := by
  rw [Answer.text, Text.narrow_append]
  refine ⟨narrow, ?_⟩
  split
  · exact (playable.fit _ known).narrow.render
  · exact narrow_prompt

include stands

theorem Playable.leads_description {place : Place} (member : place ∈ world.places) :
    Leads memory ⟨spot (roomLabel place.id), unit, input, output, taken⟩
      ⟨spot (nodeLabel place.id []), unit, input, output ++ Text.encode place.render, taken⟩ := by
  obtain ⟨middle, behind, leads⟩ :=
    (stands place member).description.leads_text (playable.fit place member).narrow.render
  cases behind
  exact leads

/-- Passing an exit tells its message and describes the place behind it. -/
theorem Playable.leads_passage {here there : Place} {exit : Exit} {index : Nat}
    (member : here ∈ world.places) (listed : (exit, index) ∈ here.exits.zipIdx)
    (known : there ∈ world.places) (named : there.id = exit.destination) :
    Leads memory ⟨spot (passageLabel here.id index), unit, input, output, taken⟩
      ⟨spot (nodeLabel there.id []), unit, input,
        output ++ Text.encode (exit.message ++ there.render), taken⟩ := by
  obtain ⟨stop, lies⟩ := (stands here member).exit _ listed
  obtain ⟨middle, _, passage⟩ := Lies.split lies
  obtain ⟨placed, code⟩ := passage.labelled
  have narrow := (playable.fit here member).narrow.messages exit (mem_zipIdx_fst listed)
  rw [← placed, ← named] at code
  rw [Text.encode_append, ← List.append_assoc]
  exact (code.leads_text_jump narrow (stands there known).room_inside).trans
    (playable.leads_description stands known)

/-- Doing a deed tells the reply, and then describes the place or asks at once. -/
theorem Playable.leads_reply {here there : Place} {deed : Deed} {index : Nat}
    (member : here ∈ world.places) (listed : (deed, index) ∈ here.deeds.zipIdx)
    (known : there ∈ world.places) (named : there.id = deed.destination.getD here.id) :
    Leads memory ⟨spot (deedLabel here.id index), unit, input, output, taken⟩
      ⟨spot (nodeLabel there.id []), unit, input,
        output ++ Text.encode (Answer.text ⟨deed.reply ++ "\n\n", there, deed.describes⟩),
        taken⟩ := by
  obtain ⟨stop, lies⟩ := (stands here member).deed _ listed
  have narrow := (playable.fit here member).narrow.reply (mem_zipIdx_fst listed)
  simp only [deedCode, ← named] at lies
  have code := lies.labelled.2
  cases describes : deed.describes with
  | true =>
    rw [describes, if_pos rfl] at code
    rw [Answer.text, if_pos rfl, Text.encode_append, ← List.append_assoc]
    exact (code.leads_text_jump narrow (stands there known).room_inside).trans
      (playable.leads_description stands known)
  | false =>
    rw [describes, if_neg (by decide)] at code
    exact code.leads_text_jump ((Text.narrow_append _ _).mpr ⟨narrow, narrow_prompt⟩)
      ((stands there known).node_inside (.inl rfl))

variable (unit output taken)

/-- A complete line takes the guest to the place of the answer, which is written on the way. -/
theorem Playable.leads_respond {here : Place} (member : here ∈ world.places) {line : Bytes}
    (clean : lineFeed ∉ line) (more : Bytes) :
    ∃ answer, world.respond here (Text.decode line) = some answer ∧ answer.place ∈ world.places ∧
      Text.Narrow answer.prelude ∧
      Leads memory ⟨spot (nodeLabel here.id []), unit, line ++ lineFeed :: more, output, taken⟩
        ⟨spot (nodeLabel answer.place.id []), lineFeed, more, output ++ Text.encode answer.text,
          taken⟩ := by
  have fit := playable.fit here member
  cases passed : here.exits.find? (·.opens (Text.decode line)) with
  | some exit =>
    obtain ⟨there, found, known, named⟩ :=
      playable.exit_place member (List.mem_of_find?_eq_some passed)
    obtain ⟨index, listed, leads⟩ := (stands here member).leads_exit fit clean passed
    refine ⟨⟨exit.message, there, true⟩, ?_, known,
      fit.narrow.messages exit (List.mem_of_find?_eq_some passed), ?_⟩
    · simp only [respond, passed, found, Option.map_some]
    · exact leads.trans (playable.leads_passage stands member listed known named)
  | none =>
    have closed : ∀ exit ∈ here.exits, exit.opens (Text.decode line) = false := by
      intro exit listed
      simpa using List.find?_eq_none.mp passed exit listed
    cases done : here.deeds.find? (·.command == Text.decode line) with
    | some deed =>
      obtain ⟨there, found, known, named⟩ :=
        playable.deed_place member (List.mem_of_find?_eq_some done)
      obtain ⟨index, listed, leads⟩ : ∃ index, (deed, index) ∈ here.deeds.zipIdx ∧
          Leads memory ⟨spot (nodeLabel here.id []), unit, line ++ lineFeed :: more, output, taken⟩
            ⟨spot (deedLabel here.id index), lineFeed, more, output, taken⟩ :=
        ((stands here member).leads_deed fit [] clean (.inl rfl) fun _ => closed).1 deed done
      refine ⟨⟨deed.reply ++ "\n\n", there, deed.describes⟩, ?_, known,
        fit.narrow.reply (List.mem_of_find?_eq_some done), ?_⟩
      · simp only [respond, passed, done, found, Option.map_some]
      · exact leads.trans (playable.leads_reply stands member listed known named)
    | none =>
      have leads : Leads memory
          ⟨spot (nodeLabel here.id []), unit, line ++ lineFeed :: more, output, taken⟩
          ⟨spot (roomLabel here.id), lineFeed, more, output, taken⟩ :=
        ((stands here member).leads_deed fit [] clean (.inl rfl) fun _ => closed).2 done
      refine ⟨⟨"", here, true⟩, ?_, member, Text.narrow_empty, ?_⟩
      · simp only [respond, passed, done]
      · have again : Answer.text ⟨"", here, true⟩ = here.render := String.empty_append
        rw [again]
        exact leads.trans (playable.leads_description stands member)

/-- All lines of some input are answered one after another, and then the guest waits for more. -/
theorem Playable.leads_converse {here : Place} (member : here ∈ world.places) (input : Bytes) :
    ∃ answers, world.converse here (completeLines input) = some answers ∧
      (∀ answer ∈ answers, Text.Narrow answer.text) ∧
      ∃ pc last, Reads memory pc ∧
        Leads memory ⟨spot (nodeLabel here.id []), unit, input, output, taken⟩
          ⟨pc, last, [], output ++ Text.encode (String.join (answers.map Answer.text)), taken⟩ := by
  induction counted : input.length using Nat.strongRecOn generalizing input output unit here with
  | ind size ih =>
    by_cases ended : lineFeed ∈ input
    · obtain ⟨line, more, rfl, clean⟩ := List.eq_append_cons_of_mem ended
      obtain ⟨answer, found, known, narrow, leads⟩ :=
        playable.leads_respond unit output taken stands member clean more
      have shorter : more.length < size := by
        rw [← counted, List.length_append, List.length_cons]
        omega
      obtain ⟨answers, others, spoken, pc, last, reads, onward⟩ :=
        ih more.length shorter lineFeed (output ++ Text.encode answer.text) known more rfl
      refine ⟨answer :: answers, ?_, List.forall_mem_cons.mpr ⟨playable.narrow_text known narrow,
        spoken⟩, pc, last, reads, ?_⟩
      · rw [completeLines_append clean, converse, found, Option.bind_eq_bind, Option.bind_some,
          others]
        rfl
      · rw [List.map_cons, String.join_cons, Text.encode_append, ← List.append_assoc]
        exact leads.trans onward
    · have stalls : Stalls memory ⟨spot (nodeLabel here.id []), unit, input, output, taken⟩ :=
        (stands here member).stalls_node (playable.fit here member) (.inl rfl) ended
      obtain ⟨pc, last, reads, leads⟩ := stalls
      have none : world.converse here (completeLines input) = some [] := by
        rw [completeLines_of_clean ended]
        rfl
      refine ⟨[], none, List.forall_mem_nil _, pc, last, reads, ?_⟩
      have silent : Text.encode (String.join (([] : List Answer).map Answer.text)) = [] := by decide
      rw [silent, List.append_nil]
      exact leads

end Answers

/-- Exits have names, and no name begins with the end of a line. -/
def ExitsNamed (world : World) : Prop :=
  ∀ place ∈ world.places, ∀ exit ∈ place.exits,
    exit.name ≠ "" ∧ exit.name.toList.head? ≠ some '\n'

theorem playable_of_check {world : World} (checked : world.check = .ok ()) (narrow : world.Narrow)
    (named : world.ExitsNamed) : world.Playable := by
  obtain ⟨start, places⟩ := check_ok checked
  refine ⟨narrow.intro, start, ?_, ?_, ?_⟩
  · intro place member
    exact (Place.check_ok (places place member)).1
  · intro place member deed listed
    exact ((Place.check_ok (places place member)).2 deed listed).2
  · intro place member
    refine ⟨narrow.places place member, named place member, ?_⟩
    intro deed listed
    exact ((Place.check_ok (places place member)).2 deed listed).1

theorem compile_ok {world : World} {image : Bytes} (compiled : world.compile = .ok image) :
    world.check = .ok () ∧
      ∃ words, (Assembly.ofProgram world.program).words = .ok words ∧
        image = Image.encode words := by
  rw [compile] at compiled
  cases checked : world.check with
  | error problem =>
    rw [checked] at compiled
    cases compiled
  | ok value =>
    cases built : (Assembly.ofProgram world.program).words with
    | error failure =>
      rw [checked, Assembly.image, built] at compiled
      cases compiled
    | ok words =>
      rw [checked, Assembly.image, built] at compiled
      cases compiled
      exact ⟨rfl, words, rfl, rfl⟩

/-- The program of a world tells the intro, describes the first place and gets to its matcher. -/
theorem Playable.leads_opening {world : World} (playable : world.Playable)
    (lies : Lies memory spot 0 world.program stop) :
    ∃ first, world.place? world.start = some first ∧ first ∈ world.places ∧
      (∀ place ∈ world.places, place.Stands memory spot) ∧
      ∀ input, Leads memory ⟨0, 0, input, [], 0⟩
        ⟨spot (nodeLabel first.id []), 0, input, Text.encode (world.intro ++ first.render), 0⟩ := by
  obtain ⟨middle, opening, places⟩ := Lies.split lies
  have stands : ∀ place ∈ world.places, place.Stands memory spot := by
    intro place member
    obtain ⟨_, _, code⟩ := places.of_mem_flatMap member
    exact stands_of_lies code
  obtain ⟨first, found⟩ := exists_place? playable.start
  obtain ⟨member, named⟩ := place?_mem found
  refine ⟨first, found, member, stands, ?_⟩
  intro input
  rw [← named] at opening
  have told : Leads memory ⟨0, 0, input, [], 0⟩
      ⟨spot (roomLabel first.id), 0, input, [] ++ Text.encode world.intro, 0⟩ :=
    opening.leads_text_jump playable.intro (stands first member).room_inside
  rw [Text.encode_append, ← List.nil_append (Text.encode world.intro)]
  exact told.trans (playable.leads_description stands member)

end World

/-- A machine that was just built hosts its program, with all input ahead of it. -/
theorem Machine.hosts_ofState (memory : Memory) (input : Bytes) (tracing : Bool) :
    Hosts memory (.ofState (.initial memory) (.ofBytes input 0) .empty tracing)
      ⟨0, 0, ByteSource.seen input, [], 0⟩ := by
  refine ⟨rfl, rfl, ?_, BufferedInput.offers_ofBytes input, ?_, ?_⟩
  · simp [Machine.ofState, State.initial, Registers.zero, Registers.get]
  · simp [Machine.ofState, BufferedOutput.empty, BufferedOutput.ofBytes, BufferedOutput.bytes]
  · simp [Machine.ofState, BufferedOutput.empty, BufferedOutput.ofBytes]

namespace World

/-- A compiled world is loaded with the code of every place in memory, and tells its opening. -/
theorem loaded_of_compile {world : World} {image : Bytes} (compiled : world.compile = .ok image)
    (fits : image.length ≤ Image.maxBytes) (narrow : world.Narrow) (named : world.ExitsNamed) :
    world.Playable ∧ ∃ memory spot first,
      (∀ (source : BufferedInput) (sink : BufferedOutput) tracing,
        Machine.ofImage image source sink tracing =
          .ok (.ofState (.initial memory) source sink tracing)) ∧
      world.place? world.start = some first ∧ first ∈ world.places ∧
      (∀ place ∈ world.places, place.Stands memory spot) ∧
      ∀ input, Leads memory ⟨0, 0, input, [], 0⟩
        ⟨spot (nodeLabel first.id []), 0, input, Text.encode (world.intro ++ first.render), 0⟩ := by
  obtain ⟨checked, words, built, rfl⟩ := compile_ok compiled
  have playable := playable_of_check checked narrow named
  obtain ⟨first, opening⟩ := playable.leads_opening
    (Assembly.lies_ofProgram built (Image.length_encode_le_iff.mp fits))
  refine ⟨playable, _, _, first, ?_, opening⟩
  intro source sink tracing
  rw [Machine.ofImage, Image.decode_encode fits]
  rfl

/-- A compiled world on any input: the image loads, a run with enough steps halts for want of input
and nothing else, and what it has written is the transcript of the world. -/
theorem run_writes_transcript {world : World} {image : Bytes} (compiled : world.compile = .ok image)
    (fits : image.length ≤ Image.maxBytes) (narrow : world.Narrow) (named : world.ExitsNamed)
    (input : Bytes) (tracing : Bool) :
    ∃ machine text enough,
      Machine.ofImage image (BufferedInput.ofBytes input 0) BufferedOutput.empty tracing =
        .ok machine ∧
      world.transcript input = some text ∧
      (∀ budget, budget < enough → (machine.run budget).value.outcome = .ok none) ∧
      ∀ budget, enough ≤ budget →
        (machine.run budget).value.outcome = .ok (some .inputExhausted) ∧
          (machine.run budget).value.machine.sink.text = text := by
  obtain ⟨playable, memory, spot, first, loads, found, member, stands, opening⟩ :=
    loaded_of_compile compiled fits narrow named
  obtain ⟨answers, spoken, narrowed, pc, last, reads, talk⟩ :=
    playable.leads_converse 0 (Text.encode (world.intro ++ first.render)) 0 stands member
      (ByteSource.seen input)
  obtain ⟨enough, _, hosts, before, after⟩ := ((opening _).trans talk).run_of_reads reads
    (Machine.hosts_ofState memory input tracing)
  have said : Text.Narrow
      (world.intro ++ first.render ++ String.join (answers.map Answer.text)) := by
    simp only [Text.narrow_append]
    refine ⟨⟨narrow.intro, (narrow.places first member).render⟩, Text.narrow_join ?_⟩
    simpa using narrowed
  refine ⟨_, world.intro ++ first.render ++ String.join (answers.map Answer.text), enough,
    loads _ _ tracing, ?_, before, ?_⟩
  · simp only [transcript, found, spoken, Option.bind_eq_bind, Option.bind_some]
    rfl
  · intro budget spent
    obtain ⟨outcome, halted⟩ := after budget spent
    refine ⟨outcome, ?_⟩
    rw [halted, BufferedOutput.text, hosts.output, ← Text.encode_append, said.decode_encode]

/-- A world is accepted when it passes its checks and its program can be built; its image can be
loaded when the program fits into memory. -/
theorem exists_image {world : World} (passed : world.check.isOk = true)
    (regular : ∀ directive ∈ world.program, directive.regular = true)
    (distinct : (world.program.flatMap Directive.placed).Nodup)
    (known : ∀ name ∈ world.program.flatMap Directive.referred,
      name ∈ world.program.flatMap Directive.placed)
    (fits : (world.program.map Directive.size).sum ≤ memorySize) :
    ∃ image, world.compile = .ok image ∧ image.length ≤ Image.maxBytes := by
  obtain ⟨words, built, size⟩ := Assembly.exists_words regular distinct known
  cases checked : world.check with
  | error problem =>
    rw [checked] at passed
    cases passed
  | ok value =>
    refine ⟨Image.encode words, ?_, Image.length_encode_le_iff.mpr (size ▸ fits)⟩
    rw [compile, checked, Assembly.image, built]
    rfl

/-- Two places with an exit each way and a deed. -/
def twoRooms : World where
  start := "hall"
  intro := "Hello.\n"
  places := [
    { id := "hall", title := "Hall", description := "A hall.", items := ["orb"]
      exits := [⟨"north", "yard", "You go out.\n"⟩]
      deeds := [⟨"sit", "You sit.", none, false⟩] },
    { id := "yard", title := "Yard", description := "A yard.", items := []
      exits := [⟨"south", "hall", ""⟩]
      deeds := [] }]

theorem twoRooms_compiles :
    ∃ image, twoRooms.compile = .ok image ∧ image.length ≤ Image.maxBytes := by
  apply exists_image <;> decide +kernel

theorem narrow_twoRooms : twoRooms.Narrow := by
  refine ⟨by decide, ?_⟩
  refine List.forall_mem_cons.mpr ⟨?_, List.forall_mem_singleton.mpr ?_⟩
  · constructor <;> decide
  · constructor <;> decide

theorem exitsNamed_twoRooms : twoRooms.ExitsNamed := by
  unfold ExitsNamed
  decide

/-- A deed, an exit and an unfinished line. -/
theorem run_writes_transcript_twoRooms :
    ∃ image machine enough,
      twoRooms.compile = .ok image ∧ image.length ≤ Image.maxBytes ∧ twoRooms.Narrow ∧
      twoRooms.ExitsNamed ∧
      Machine.ofImage image (BufferedInput.ofBytes (Text.encode "sit\r\nnorth\nso") 0)
        BufferedOutput.empty false = .ok machine ∧
      ∀ budget, enough ≤ budget →
        (machine.run budget).value.outcome = .ok (some .inputExhausted) ∧
          (machine.run budget).value.machine.sink.text = "Hello.\n== Hall ==\nA hall.\n\n" ++
            "Things of interest here:\n- orb\n\nThere is 1 exit:\n- north\n\nWhat do you do?" ++
            "You sit.\n\nWhat do you do?" ++
            "You go out.\n== Yard ==\nA yard.\n\nThere is 1 exit:\n- south\n\nWhat do you do?" := by
  obtain ⟨image, compiled, fits⟩ := twoRooms_compiles
  obtain ⟨machine, text, enough, loaded, told, _, halted⟩ := run_writes_transcript compiled fits
    narrow_twoRooms exitsNamed_twoRooms (Text.encode "sit\r\nnorth\nso") false
  refine ⟨image, machine, enough, compiled, fits, narrow_twoRooms, exitsNamed_twoRooms, loaded, ?_⟩
  intro budget spent
  obtain ⟨outcome, written⟩ := halted budget spent
  refine ⟨outcome, written.trans (Option.some.inj (told.symm.trans ?_))⟩
  decide +kernel

end World

end AdventureMachine
