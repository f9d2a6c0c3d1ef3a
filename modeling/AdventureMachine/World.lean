import AdventureMachine.Assembly
import AdventureMachine.Room

/-! Scripted worlds: a graph of places compiled into a guest program. The program describes a
place, reads a line, and follows the exit whose name starts with the line's first unit; an action
matches a whole line; any other line describes the place again. -/
namespace AdventureMachine

/-- A way out of a place. -/
structure World.Exit where
  name : String
  destination : String
  /-- Printed before the destination is described. -/
  message : String

/-- A command matched on the whole line. -/
structure World.Deed where
  command : String
  reply : String
  /-- Where the player is afterwards, if not here. -/
  destination : Option String
  /-- Whether the place is described after the reply, instead of asking right away. -/
  describes : Bool

/-- A place of a world. -/
structure World.Place where
  id : String
  title : String
  description : String
  items : List String
  exits : List World.Exit
  deeds : List World.Deed

/-- A graph of places. -/
structure World where
  start : String
  places : List World.Place
  /-- Printed once before the first place is described. -/
  intro : String

namespace World

/-- A list of entries under a header, or nothing when there are none. -/
def renderList (header : String) (entries : List String) : String :=
  if entries.isEmpty then ""
  else header ++ "\n" ++ String.join (entries.map fun entry => "- " ++ entry ++ "\n") ++ "\n"

/-- The header above a number of exits. -/
def exitsHeader (count : Nat) : String :=
  if count = 1 then "There is 1 exit:" else "There are " ++ decimal count ++ " exits:"

/-- The text that describes a place, prompt included. -/
def Place.render (place : Place) : String :=
  "== " ++ place.title ++ " ==\n" ++ place.description ++ "\n\n" ++
    renderList Room.itemsHeader place.items ++
    renderList (exitsHeader place.exits.length) (place.exits.map Exit.name) ++ Room.prompt

/-- The first unit of an exit's name; an exit without a name has none. -/
def Exit.initial (exit : Exit) : List UInt16 := (Text.units exit.name).take 1

/-- Why a world can not be built. -/
inductive Problem where
  | unknownStart (start : String)
  | exitNowhere (name place destination : String)
  | sharedInitial (place : String) (initial : List UInt16)
  | badCommand (place : String)
  | commandTwice (command place : String)
  | commandClash (command place : String)
  | deedNowhere (command place destination : String)
  | assembly (failure : Assembly.Failure)

/-- What is told about a world that can not be built. -/
def Problem.message : Problem → String
  | unknownStart start => "Unknown start room " ++ start
  | exitNowhere name place destination =>
    "Exit " ++ name ++ " of " ++ place ++ " leads to unknown room " ++ destination
  | sharedInitial place initial =>
    "Exits of " ++ place ++ " share the initial " ++ Text.ofUnits initial
  | badCommand place => "Action of " ++ place ++ " needs a single-line command"
  | commandTwice command place => "Action " ++ command ++ " of " ++ place ++ " is defined twice"
  | commandClash command place =>
    "Action " ++ command ++ " of " ++ place ++ " clashes with an exit initial"
  | deedNowhere command place destination =>
    "Action " ++ command ++ " of " ++ place ++ " leads to unknown room " ++ destination
  | assembly failure => failure.message

/-- Checks the exits of a place; `initials` were met before. -/
def checkExits (ids : List String) (place : String) (initials : List (List UInt16)) :
    List Exit → Except Problem (List (List UInt16))
  | [] => .ok initials
  | exit :: rest =>
    if !ids.contains exit.destination then .error (.exitNowhere exit.name place exit.destination)
    else if initials.contains exit.initial then .error (.sharedInitial place exit.initial)
    else checkExits ids place (exit.initial :: initials) rest

/-- Checks the deeds of a place; `commands` were met before. -/
def checkDeeds (ids : List String) (place : String) (initials : List (List UInt16))
    (commands : List String) : List Deed → Except Problem Unit
  | [] => .ok ()
  | deed :: rest =>
    if deed.command.isEmpty || deed.command.toList.contains '\n' then .error (.badCommand place)
    else if commands.contains deed.command then .error (.commandTwice deed.command place)
    else if initials.contains ((Text.units deed.command).take 1) then
      .error (.commandClash deed.command place)
    else
      match deed.destination.filter fun destination => !ids.contains destination with
      | some destination => .error (.deedNowhere deed.command place destination)
      | none => checkDeeds ids place initials (deed.command :: commands) rest

/-- Checks one place. -/
def Place.check (ids : List String) (place : Place) : Except Problem Unit := do
  let initials ← checkExits ids place.id [] place.exits
  checkDeeds ids place.id initials [] place.deeds

/-- Checks a whole world, place by place. -/
def check (world : World) : Except Problem Unit := do
  let ids := world.places.map Place.id
  if !ids.contains world.start then throw (.unknownStart world.start)
  world.places.forM (Place.check ids)

end World

end AdventureMachine
