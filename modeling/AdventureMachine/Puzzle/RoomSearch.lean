import AdventureMachine.Adventure
import Std.Data.HashSet

/-! Looking for a response by walking the map depth first. Every exit is tried on a fork, so the game
itself does not move. Rooms count as the same when title and description agree, which tells apart
the rooms of a maze that share a title. -/
namespace AdventureMachine.RoomSearch

/-- What to look for and where not to go. -/
structure Query where
  accept : Response → Bool
  /-- Exits that are never taken. -/
  skippedExits : List String := ["ladder"]
  limit : Option Number := none

/-- A response that was found. -/
structure Find where
  /-- The game right behind the response. -/
  game : Adventure
  response : Response
  /-- Commands that lead there from the start. -/
  path : List String

/-- What a search remembers. -/
structure Progress where
  /-- Keys of the rooms seen. -/
  visited : Std.HashSet String
  /-- Responses compared with the query, latest first. -/
  examined : List Response

/-- A search that can fail and logs what it does. -/
abbrev Search := StateT Progress (ExceptT Error Logged)

/-- Adds a record to the journal of a search. -/
def note (record : Log.Record) : Search Unit :=
  StateT.lift (ExceptT.lift (Logged.note record))

/-- Compares a response with the query. -/
def examine (query : Query) (response : Response) : Search Bool := do
  modify fun progress => { progress with examined := response :: progress.examined }
  return query.accept response

/-- Marks a room as seen and tells whether it was new. -/
def discover (room : Room) : Search Bool := do
  let progress ← get
  if progress.visited.contains room.key then return false
  else
    set { progress with visited := progress.visited.insert room.key }
    return true

/-- The record of a response that was accepted. -/
def foundRecord (path : List String) : Log.Record :=
  .ofFields .debug "Room search matched" [("path", .list (path.map .text))]

/-- Tries exits in order until one leads to a find; `descend` explores a new room. -/
def tryExits (query : Query)
    (descend : Adventure → Room → List String → Search (Option Find))
    (game : Adventure) (path : List String) : List String → Search (Option Find)
  | [] => return none
  | exit :: rest => do
    if query.skippedExits.contains exit then tryExits query descend game path rest
    else
      let budget := Machine.budgetOf query.limit
      let (event, fork) ← StateT.lift (ExceptT.mk (game.attempt budget exit))
      let path' := path ++ [exit]
      if ← examine query event.toResponse then
        note (foundRecord path')
        return some ⟨fork, event.toResponse, path'⟩
      else
        match event.room with
        | none => tryExits query descend game path rest
        | some room =>
          if ← discover room then
            match ← descend fork room path' with
            | some found => return some found
            | none => tryExits query descend game path rest
          else tryExits query descend game path rest

/-- Explores a room and everything behind it, less than `depth` rooms deep. -/
def explore (query : Query) :
    (depth : Nat) → Adventure → Room → List String → Search (Option Find)
  | 0, _, _, _ => throw .endlessWalk
  | depth + 1, game, room, path => tryExits query (explore query depth) game path room.exits

/-- A depth that no map reaches. -/
def deepest : Nat := Nat.pow 2 62

/-- The record of a search that went to its end. -/
def finishedRecord (rooms : Nat) (found : Bool) : Log.Record :=
  .ofFields .info "Room search finished" [("rooms", .count rooms), ("found", .flag found)]

/-- What a search looked at and what it found. -/
structure Report where
  /-- Responses compared with the query, in order. -/
  examined : List Response
  found : Option Find

/-- Searches from the room in which the game stands. The start itself may already match. -/
def run (query : Query) (game : Adventure) (start : Room) : Logged (Except Error Report) :=
  let opening : Response := ⟨"", some start⟩
  if query.accept opening then .quiet (.ok ⟨[opening], some ⟨game.fork, opening, []⟩⟩)
  else do
    let progress : Progress := ⟨Std.HashSet.emptyWithCapacity.insert start.key, [opening]⟩
    match ← ((explore query deepest game start []).run progress).run with
    | .error error => return .error error
    | .ok (found, progress) =>
      Logged.note (finishedRecord progress.visited.size found.isSome)
      return .ok ⟨progress.examined.reverse, found⟩

/-- Accepts a response whose room lists an item. -/
def listsItem (item : String) (response : Response) : Bool :=
  match response.room with
  | some room => room.items.contains item
  | none => false

/-- Accepts a response that prints a text before the room. -/
def printsText (text : String) (response : Response) : Bool :=
  Text.occurs text.toList response.prelude.toList

end AdventureMachine.RoomSearch
