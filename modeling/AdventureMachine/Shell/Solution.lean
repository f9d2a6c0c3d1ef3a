import AdventureMachine.Puzzle.Calibration
import AdventureMachine.Puzzle.Coins
import AdventureMachine.Puzzle.RoomSearch
import AdventureMachine.Puzzle.VaultMap
import AdventureMachine.Shell.Environment
import AdventureMachine.Shell.Host
import AdventureMachine.Shell.Invocation

/-! Solving the puzzles for a player: the commands to type, and the game after they were applied. -/
namespace AdventureMachine

/-- Why a command could not do its work. -/
inductive Trouble where
  | machine (error : Error)
  | unreadable (path : String) (failure : FileFailure)
  | unwritable (path : String) (failure : FileFailure)
  | noFolder (failure : FileFailure)
  | unsavable (counter : UnsavableCounter)
  | calibration (failure : Calibration.Failure)
  | noCoinOrder
  | noSnapshot
  | noRoom
  | noWalk
  | noItem (item : String)
  | noCode (text : String)

namespace Trouble

/-- What is told about a trouble. -/
def message : Trouble → String
  | machine error => error.message
  | unreadable path failure => "Failed to read " ++ path ++ ": " ++ failure.message
  | unwritable path failure => "Failed to write " ++ path ++ ": " ++ failure.message
  | noFolder failure => failure.message
  | unsavable counter => counter.message
  | calibration failure => failure.message
  | noCoinOrder => "No coin order satisfies the equation"
  | noSnapshot => "This puzzle needs --snapshot"
  | noRoom => "The game did not describe a room"
  | noWalk => "No walk through the vault opens the door"
  | noItem item => "No reachable room holds " ++ item
  | noCode text => "No lit passage shows " ++ text

/-- A trouble in a log record. -/
def toLog (trouble : Trouble) : Log.Value :=
  match trouble with
  | machine error | calibration (.machine error) => error.toLog
  | noFolder failure => .error "Error" failure.message (some failure.code) none
  | trouble => .error "Error" trouble.message none none

end Trouble

/-- What a player has to do, and the game in which it was done. -/
structure Solution where
  lines : List String
  game : Option Adventure

namespace Solution

/-- Work on a saved game that logs and can run into trouble. -/
abbrev Work := ExceptT Trouble Logged

/-- Keeps the records and turns the failures of a game into troubles. -/
def ofLogged {α : Type} (answer : Logged (Except Error α)) : Work α :=
  ExceptT.mk do
    let value ← answer
    return value.mapError .machine

/-- Reads the next response of a game. -/
def cycle (limit : Option Number) (game : Adventure) : Work (Event × Adventure) :=
  ofLogged do
    let (answer, game) ← Adventure.cycle (Machine.budgetOf limit) game
    return answer.map fun event => (event, game)

/-- Sends commands and reads the response to the last one. -/
def commands (limit : Option Number) (game : Adventure) (list : List String) :
    Work (Event × Adventure) :=
  ofLogged do
    let (answer, game) ← game.commands (Machine.budgetOf limit) Adventure.silence list
    return answer.map fun event => (event, game)

/-- Asks the game to describe the room it stands in. -/
def currentRoom (limit : Option Number) (command : Option String) (game : Adventure) :
    Work (Room × Adventure) := do
  let (event, game) ← cycle limit (game.send (command.getD "look"))
  match event.room with
  | some room => return (room, game)
  | none => throw .noRoom

/-- The order in which to use the coins. -/
def coins : Work Solution := do
  match Coin.solve Coin.found Coin.target with
  | some order => return ⟨order.map fun coin => "use " ++ coin.name, none⟩
  | none => throw .noCoinOrder

/-- Calibrates the teleporter and uses it. -/
def teleporter (limit : Option Number) (options : SolveOptions) (game : Adventure) :
    Work Solution := do
  let usual : Calibration := {}
  let plan : Calibration :=
    { usual with
      command := options.command <|> usual.command
      limit := limit.getD usual.limit }
  let (answer, game) ← ExceptT.lift (plan.run game)
  match answer with
  | .error failure => throw (.calibration failure)
  | .ok result =>
    let (event, game) ← cycle limit game
    let first := "r7 = " ++ decimal result.level ++ " (f(" ++ decimal result.m.toNat ++ ", " ++
      decimal result.n.toNat ++ ") = " ++ decimal result.target.toNat ++ ")"
    let place := (event.room.map Room.title).getD "unknown"
    return ⟨[first, "arrived at: " ++ place], some game⟩

/-- Maps the vault and walks to its door. The orb has to be carried along. -/
def vault (limit : Option Number) (options : SolveOptions) (game : Adventure) : Work Solution := do
  let (_, game) ← commands limit game ["take orb"]
  let (room, game) ← currentRoom limit options.command game
  let survey : Vault.Survey := { limit }
  let grid ← ofLogged (survey.run game room)
  match Vault.path? {} grid with
  | none => throw .noWalk
  | some path =>
    let lines := path.map Vault.Direction.name
    let queued := lines.foldl Adventure.send game
    let run ← ExceptT.lift (queued.run (Machine.budgetOf limit))
    match run.outcome with
    | .error error => throw (.machine error)
    | .ok _ => return ⟨lines, some run.machine⟩

/-- The words in front of the code on the wall. -/
def codeText : String := "Chiseled"

/-- Fetches an item from the passages, lights the lantern and looks for the code. -/
def passages (limit : Option Number) (options : SolveOptions) (game : Adventure) :
    Work Solution := do
  let (room, game) ← currentRoom limit options.command game
  let search (accept : Response → Bool) (game : Adventure) (room : Room) :
      Work (Option RoomSearch.Find) := do
    let query : RoomSearch.Query := { accept, limit }
    return (← ofLogged (RoomSearch.run query game room)).found
  let some fetched ← search (RoomSearch.listsItem options.item) game room
    | throw (.noItem options.item)
  let light := ["take " ++ options.item, "use " ++ options.item, "use lantern"]
  let (event, game) ← commands limit fetched.game light
  let (room, game) ← match event.room with
    | some room => pure (room, game)
    | none => currentRoom limit options.command game
  let some code ← search (RoomSearch.printsText codeText) game room
    | throw (.noCode codeText)
  let wall := String.ofList (Text.trim code.response.prelude.toList)
  return ⟨fetched.path ++ light ++ code.path ++ [wall], some code.game⟩

/-- Solves a puzzle that is played on a saved game. -/
def ofGame (puzzle : Puzzle) (limit : Option Number) (options : SolveOptions) (game : Adventure) :
    Work Solution :=
  match puzzle with
  | .coins => coins
  | .teleporter => teleporter limit options game
  | .vault => vault limit options game
  | .passages => passages limit options game

end Solution

end AdventureMachine
