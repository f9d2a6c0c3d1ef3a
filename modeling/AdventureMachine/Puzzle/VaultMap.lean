import AdventureMachine.Puzzle.Vault

/-! Mapping the vault by walking it. Every exit is tried on a fork of the game. A move that breaks
the orb or leads out of the vault is not followed, and the room with the door is not left. -/
namespace AdventureMachine.Vault

/-- The room in front of the vault. -/
def antechamber : String := "Vault Antechamber"

/-- The room with the door. -/
def door : String := "Vault Door"

/-- How far to walk. -/
structure Survey where
  side : Int := 4
  limit : Option Number := none

namespace Survey

/-- A walk that can fail, draws the grid and logs what it does. -/
abbrev Mapping := StateT Grid (ExceptT Error Logged)

/-- Adds a record to the journal of a mapping. -/
def note (record : Log.Record) : Mapping Unit :=
  StateT.lift (ExceptT.lift (Logged.note record))

/-- The record of a new cell. -/
def cellRecord (position : Position) (cell : Cell) : Log.Record :=
  .ofFields .debug "Mapped vault cell"
    [("x", .number (.whole position.x)), ("y", .number (.whole position.y)), ("cell", cell.toLog)]

/-- The room to go on from after a move, unless the move is not followed. -/
def follow? (event : Event) : Option Room := do
  let room ← event.room
  guard (!Text.occurs "shatter".toList event.prelude.toList)
  guard ("Vault".toList.isPrefixOf room.title.toList && room.title != antechamber)
  return room

/-- The place behind an exit, if it is a direction that leads to an unmapped place of the square. -/
def target? (survey : Survey) (grid : Grid) (position : Position) (exit : String) :
    Option Position := do
  let direction ← Direction.ofName? exit
  let next := position.move direction
  guard (next.inside survey.side && (grid.get? next).isNone)
  return next

/-- Maps a room and everything behind it, less than `budget` rooms deep. -/
def visit (survey : Survey) : (budget : Nat) → Adventure → Room → Position → Mapping Unit
  | 0, _, _, _ => throw .endlessWalk
  | budget + 1, game, room, position => do
    if ((← get).get? position).isNone then
      let cell ← StateT.lift (ExceptT.mk (.quiet (Cell.parse room.description)))
      modify fun grid => grid.insert position cell
      note (cellRecord position cell)
      if room.title != door then
        room.exits.forM fun exit => do
          match survey.target? (← get) position exit with
          | none => return ()
          | some next =>
            let limit := Machine.budgetOf survey.limit
            let (event, fork) ← StateT.lift (ExceptT.mk (game.attempt limit exit))
            match follow? event with
            | none => return ()
            | some room => visit survey budget fork room next

/-- Maps the vault from the room in which the game stands. A walk that enters every place of the
square at most once stays within the bound. -/
def run (survey : Survey) (game : Adventure) (start : Room) : Logged (Except Error Grid) := do
  let budget := survey.side.toNat * survey.side.toNat + 1
  match ← ((survey.visit budget game start .entrance).run .empty).run with
  | .error error => return .error error
  | .ok ((), grid) =>
    Logged.note (.ofFields .info "Mapped vault" [("cells", .count grid.cells.length)])
    return .ok grid

end Survey

end AdventureMachine.Vault
