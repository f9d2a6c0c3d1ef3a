import AdventureMachine.World
import AdventureMachine.Proofs.Progress
import AdventureMachine.Proofs.Text

/-! What a world answers, told without a program. The player is in a place; a line takes the exit
whose name starts with its first character, or does the deed whose command it is, or else has the
place described again. The transcript is everything that is said on some input. -/
namespace AdventureMachine.World

open Text (lineFeed)

/-- The place with the given id. -/
def place? (world : World) (id : String) : Option Place :=
  world.places.find? fun place => place.id == id

/-- An answer to a line: what is said first, where the player is then, and whether that place is
described. -/
structure Answer where
  prelude : String
  place : Place
  describes : Bool

/-- Everything that an answer says, prompt included. -/
def Answer.text (answer : Answer) : String :=
  answer.prelude ++ if answer.describes then answer.place.render else Room.prompt

/-- Whether the name of an exit starts with the first character of a line. -/
def Exit.opens (exit : Exit) (line : String) : Bool :=
  match line.toList with
  | [] => false
  | first :: _ => exit.name.toList.head? == some first

/-- The answer to a line of a player who is in a place. -/
def respond (world : World) (here : Place) (line : String) : Option Answer :=
  match here.exits.find? (·.opens line) with
  | some exit => (world.place? exit.destination).map fun there => ⟨exit.message, there, true⟩
  | none =>
    match here.deeds.find? (·.command == line) with
    | some deed =>
      (deed.destination.elim (some here) world.place?).map fun there =>
        ⟨deed.reply ++ "\n\n", there, deed.describes⟩
    | none => some ⟨"", here, true⟩

/-- The answers to one line after another. -/
def converse (world : World) (here : Place) : List String → Option (List Answer)
  | [] => some []
  | line :: rest => do
    let answer ← world.respond here line
    let answers ← world.converse answer.place rest
    return answer :: answers

/-- The lines of a byte string that are ended by a line feed. -/
def completeLines (bytes : Bytes) : List String :=
  (Text.lines (Text.decode bytes).toList).dropLast.map String.ofList

/-- Everything that a world says on some input. -/
def transcript (world : World) (input : Bytes) : Option String := do
  let start ← world.place? world.start
  let answers ← world.converse start (completeLines (ByteSource.seen input))
  return world.intro ++ start.render ++ String.join (answers.map Answer.text)

theorem converse_cons_eq_some {world : World} {here : Place} {line : String} {rest : List String}
    {answers : List Answer} (said : world.converse here (line :: rest) = some answers) :
    ∃ answer others, world.respond here line = some answer ∧
      world.converse answer.place rest = some others ∧ answers = answer :: others := by
  obtain ⟨answer, found, later⟩ := Option.bind_eq_some_iff.mp said
  obtain ⟨others, spoken, same⟩ := Option.bind_eq_some_iff.mp later
  exact ⟨answer, others, found, spoken, (Option.some.inj same).symm⟩

/-- Each line has one answer. -/
theorem length_converse {world : World} {here : Place} {lines : List String}
    {answers : List Answer} (said : world.converse here lines = some answers) :
    answers.length = lines.length := by
  induction lines generalizing here answers with
  | nil =>
    cases said
    rfl
  | cons line rest ih =>
    obtain ⟨answer, others, _, spoken, rfl⟩ := converse_cons_eq_some said
    rw [List.length_cons, List.length_cons, ih spoken]

theorem completeLines_of_clean {bytes : Bytes} (clean : lineFeed ∉ bytes) :
    completeLines bytes = [] := by
  have single := Text.lines_of_clean fun member => clean (Text.newline_mem_decode_iff.mp member)
  rw [completeLines, single]
  rfl

theorem completeLines_append {line : Bytes} (clean : lineFeed ∉ line) (more : Bytes) :
    completeLines (line ++ lineFeed :: more) = Text.decode line :: completeLines more := by
  have split : (Text.decode (line ++ lineFeed :: more)).toList =
      (Text.decode line).toList ++ '\n' :: (Text.decode more).toList := by
    rw [Text.toList_decode, List.map_append, List.map_cons, Text.byteChar_lineFeed,
      Text.toList_decode, Text.toList_decode]
  have single := Text.lines_of_clean fun member => clean (Text.newline_mem_decode_iff.mp member)
  rw [completeLines, split, Text.lines_append, single, List.singleton_append,
    List.dropLast_cons_of_ne_nil (Text.lines_ne_nil _), List.map_cons, String.ofList_toList]
  rfl

theorem Exit.opens_decode_nil (exit : Exit) : exit.opens (Text.decode []) = false := by
  simp only [Exit.opens, Text.toList_decode, List.map_nil]

theorem Exit.opens_decode_cons (exit : Exit) (byte : UInt8) (rest : Bytes) :
    exit.opens (Text.decode (byte :: rest)) =
      (exit.name.toList.head? == some (Text.byteChar byte)) := by
  simp only [Exit.opens, Text.toList_decode, List.map_cons]

/-- All texts of a place consist of characters that are single bytes. -/
structure Place.Narrow (place : Place) : Prop where
  title : Text.Narrow place.title
  description : Text.Narrow place.description
  items : ∀ item ∈ place.items, Text.Narrow item
  names : ∀ exit ∈ place.exits, Text.Narrow exit.name
  messages : ∀ exit ∈ place.exits, Text.Narrow exit.message
  commands : ∀ deed ∈ place.deeds, Text.Narrow deed.command
  replies : ∀ deed ∈ place.deeds, Text.Narrow deed.reply

/-- All texts of a world consist of characters that are single bytes. -/
structure Narrow (world : World) : Prop where
  intro : Text.Narrow world.intro
  places : ∀ place ∈ world.places, place.Narrow

theorem narrow_prompt : Text.Narrow Room.prompt := by decide

theorem narrow_renderList {header : String} {entries : List String} (narrow : Text.Narrow header)
    (listed : ∀ entry ∈ entries, Text.Narrow entry) : Text.Narrow (renderList header entries) := by
  rw [renderList]
  split
  · decide
  · have rows : Text.Narrow (String.join (entries.map fun entry => "- " ++ entry ++ "\n")) := by
      apply Text.narrow_join
      intro row member
      obtain ⟨entry, inside, rfl⟩ := List.mem_map.mp member
      simp only [Text.narrow_append]
      exact ⟨⟨by decide, listed entry inside⟩, by decide⟩
    simp only [Text.narrow_append]
    exact ⟨⟨⟨narrow, by decide⟩, rows⟩, by decide⟩

theorem narrow_exitsHeader (count : Nat) : Text.Narrow (exitsHeader count) := by
  rw [exitsHeader]
  split
  · decide
  · simp only [Text.narrow_append]
    exact ⟨⟨by decide, Text.narrow_decimal count⟩, by decide⟩

theorem Place.Narrow.render {place : Place} (narrow : place.Narrow) : Text.Narrow place.render := by
  have exits : ∀ name ∈ place.exits.map Exit.name, Text.Narrow name := by
    intro name member
    obtain ⟨exit, inside, rfl⟩ := List.mem_map.mp member
    exact narrow.names exit inside
  simp only [Place.render, Text.narrow_append]
  exact ⟨⟨⟨⟨⟨⟨⟨by decide, narrow.title⟩, by decide⟩, narrow.description⟩, by decide⟩,
    narrow_renderList (by decide) narrow.items⟩,
    narrow_renderList (narrow_exitsHeader _) exits⟩, narrow_prompt⟩

theorem Place.Narrow.reply {place : Place} (narrow : place.Narrow) {deed : Deed}
    (listed : deed ∈ place.deeds) : Text.Narrow (deed.reply ++ "\n\n") :=
  (Text.narrow_append _ _).mpr ⟨narrow.replies deed listed, by decide⟩

theorem place?_mem {world : World} {id : String} {place : Place}
    (found : world.place? id = some place) : place ∈ world.places ∧ place.id = id :=
  ⟨List.mem_of_find?_eq_some found, by simpa using List.find?_some found⟩

theorem exists_place? {world : World} {id : String} (known : id ∈ world.places.map Place.id) :
    ∃ place, world.place? id = some place := by
  obtain ⟨place, member, rfl⟩ := List.mem_map.mp known
  exact Option.isSome_iff_exists.mp (List.find?_isSome.mpr ⟨place, member, by simp⟩)

end AdventureMachine.World
