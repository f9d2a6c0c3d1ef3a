import AdventureMachine.World

/-! The guest program of a world. For every place: its description, a tree of tests that walks the
commands unit by unit, a loop that drops the rest of an unknown line, and the code of its exits and
deeds. The unit just read is in the second register, the outcome of a test in the third. -/
namespace AdventureMachine

namespace World

/-- The register that holds the unit just read. -/
def readUnit : Argument := .register 1

/-- The register that holds the outcome of a test. -/
def outcome : Argument := .register 2

/-- Where a place is described. -/
def roomLabel (id : String) : Label := Text.units ("room:" ++ id)

/-- Where a line that begins with `stem` is read on. -/
def nodeLabel (id : String) (stem : List UInt16) : Label := Text.units ("node:" ++ id ++ ":") ++ stem

/-- Where the rest of an unknown line is dropped. -/
def unknownLabel (id : String) : Label := Text.units ("unknown:" ++ id)

/-- Where the rest of a line that takes an exit is dropped. -/
def exitLabel (id : String) (index : Nat) : Label :=
  Text.units ("exit:" ++ id ++ ":" ++ decimal index)

/-- Where an exit is passed. -/
def passageLabel (id : String) (index : Nat) : Label := exitLabel id index ++ Text.units ":go"

/-- Where a deed is answered. -/
def deedLabel (id : String) (index : Nat) : Label :=
  Text.units ("action:" ++ id ++ ":" ++ decimal index)

/-- Goes to `target` when the unit just read is `unit`. -/
def whenUnit (unit : Nat) (target : Label) : List Directive :=
  [.op .eq [outcome, readUnit, .literal unit], .op .jt [outcome, .label target]]

/-- Drops input up to the newline, from the unit just read on, and goes to `target`. -/
def drainLine (name target : Label) : List Directive :=
  .label name :: whenUnit newline target ++
    [.op .input [readUnit], .op .jmp [.label name]]

/-- The units that continue `stem` in some command, each once, in the order of the commands. -/
def continuations (stem : List UInt16) (commands : List (List UInt16)) : List UInt16 :=
  commands.foldl (fun found command =>
    if stem.isPrefixOf command then
      match command.drop stem.length with
      | unit :: _ => if found.contains unit then found else found ++ [unit]
      | [] => found
    else found) []

/-- The tests for a line that begins with `stem`, and behind them the tests for every longer
stem. `depth` bounds how far stems can still grow. -/
def node (place : Place) (commands : List (List UInt16)) :
    (depth : Nat) → (stem : List UInt16) → List Directive
  | 0, _ => []
  | depth + 1, stem =>
    let exits :=
      if stem.isEmpty then
        place.exits.zipIdx.flatMap fun (exit, index) =>
          whenUnit (exit.initial.headD 0).toNat (exitLabel place.id index)
      else []
    let deeds := commands.zipIdx.flatMap fun (command, index) =>
      if !stem.isEmpty && command = stem then whenUnit newline (deedLabel place.id index) else []
    let longer := continuations stem commands
    let children := longer.flatMap fun unit =>
      whenUnit unit.toNat (nodeLabel place.id (stem ++ [unit]))
    [.label (nodeLabel place.id stem), .op .input [readUnit]] ++ exits ++ deeds ++ children ++
      [.op .jmp [.label (unknownLabel place.id)]] ++
      longer.flatMap fun unit => node place commands depth (stem ++ [unit])

/-- The command matcher of a place. -/
def dispatch (place : Place) : List Directive :=
  let commands := place.deeds.map fun deed => Text.units deed.command
  let depth := (commands.map List.length).foldl max 0 + 1
  node place commands depth [] ++ drainLine (unknownLabel place.id) (roomLabel place.id)

/-- The code of an exit. -/
def exitCode (place : Place) (exit : Exit) (index : Nat) : List Directive :=
  drainLine (exitLabel place.id index) (passageLabel place.id index) ++
    [.label (passageLabel place.id index), .print (Text.units exit.message),
      .op .jmp [.label (roomLabel exit.destination)]]

/-- The code of a deed. -/
def deedCode (place : Place) (deed : Deed) (index : Nat) : List Directive :=
  let destination := deed.destination.getD place.id
  .label (deedLabel place.id index) ::
    if deed.describes then
      [.print (Text.units (deed.reply ++ "\n\n")), .op .jmp [.label (roomLabel destination)]]
    else
      [.print (Text.units (deed.reply ++ "\n\n" ++ Room.prompt)),
        .op .jmp [.label (nodeLabel destination [])]]

/-- The code of a place. -/
def placeCode (place : Place) : List Directive :=
  [.label (roomLabel place.id), .print (Text.units place.render)] ++ dispatch place ++
    (place.exits.zipIdx.flatMap fun (exit, index) => exitCode place exit index) ++
    place.deeds.zipIdx.flatMap fun (deed, index) => deedCode place deed index

/-- The whole guest program. -/
def program (world : World) : List Directive :=
  [.print (Text.units world.intro), .op .jmp [.label (roomLabel world.start)]] ++
    world.places.flatMap placeCode

/-- The image of a world that passes its checks. -/
def compile (world : World) : Except Problem Bytes := do
  world.check
  match (Assembly.ofProgram world.program).image with
  | .ok image => return image
  | .error failure => throw (.assembly failure)

end World

end AdventureMachine
