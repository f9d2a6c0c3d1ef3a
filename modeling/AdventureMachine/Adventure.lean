import AdventureMachine.Image
import AdventureMachine.Machine.Run
import AdventureMachine.Room
import AdventureMachine.Snapshot
import AdventureMachine.Transport.Buffered

/-! Driving a text adventure: commands go in as lines, responses come out up to the prompt. A fork
is a machine of its own, so trying a command leaves the game as it was. -/
namespace AdventureMachine

namespace BufferedOutput

/-- Takes the next response, prompt included; without a prompt, everything unread. -/
def takeResponse (output : BufferedOutput) : String × BufferedOutput :=
  let unread := output.unread
  match Text.splitAt? Room.prompt.toList unread.toList with
  | none => output.readNew
  | some (front, _) =>
    let response := front ++ Room.prompt.toList
    (.ofList response, output.consume response.length)

end BufferedOutput

/-- A machine with queued commands and captured output. -/
abbrev Adventure := Machine BufferedInput BufferedOutput

/-- A response together with the reason why the machine stopped before it was read. -/
structure Event extends Response where
  halt : Option HaltReason

namespace Adventure

/-- The event of a game that was asked nothing. -/
def silence : Event := ⟨⟨"", none⟩, none⟩

/-- A game started from an image, with input queued. -/
def ofImage (image : Bytes) (input : String) (tracing : Bool) :
    Logged (Except Error Adventure) :=
  Machine.loggedOfImage image (.ofText input) .empty tracing

/-- A saved game, with input queued. -/
def ofSnapshot (snapshot : Bytes) (input : String) (tracing : Bool) :
    Logged (Except Error Adventure) :=
  Machine.loggedOfSnapshot snapshot (.ofText input) .empty tracing

/-- Queues a command line. -/
def send (game : Adventure) (command : String) : Adventure :=
  { game with source := game.source.append (Text.encode (command ++ "\n")) }

/-- An independent copy of the game and both transports. -/
def fork (game : Adventure) : Adventure := game.rewire game.source.clone game.sink.clone

/-- Takes the next response from the captured output. -/
def takeResponse (game : Adventure) : String × Adventure :=
  let (response, sink) := game.sink.takeResponse
  (response, { game with sink })

/-- Runs until the machine stops, normally for want of input, and reads the next response. -/
def cycle (budget : Nat) (game : Adventure) : Logged (Except Error Event × Adventure) := do
  let run ← game.run budget
  match run.outcome with
  | .error error => return (.error error, run.machine)
  | .ok halt =>
    let (text, game) := takeResponse run.machine
    return ((Room.parse text).map fun response => ⟨response, halt⟩, game)

/-- Sends a command to a fork and reads its response. -/
def attempt (budget : Nat) (game : Adventure) (command : String) :
    Logged (Except Error (Event × Adventure)) := do
  let (answer, fork) ← cycle budget (game.fork.send command)
  return answer.map fun event => (event, fork)

/-- Sends commands one by one and reads each response; the last one is the answer. -/
def commands (budget : Nat) (game : Adventure) (last : Event) :
    List String → Logged (Except Error Event × Adventure)
  | [] => .quiet (.ok last, game)
  | command :: rest => do
    let (answer, game) ← cycle budget (game.send command)
    match answer with
    | .error error => return (.error error, game)
    | .ok event => commands budget game event rest

end Adventure

end AdventureMachine
