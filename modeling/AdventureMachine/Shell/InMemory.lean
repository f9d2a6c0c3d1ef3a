import AdventureMachine.Shell.Command
import AdventureMachine.Shell.FileTree

/-! The program on files kept in memory, with its input given and its output collected. -/
namespace AdventureMachine

/-- Surroundings without a system: files, bytes still to be typed, and everything shown so far. -/
structure InMemory where
  tree : FileTree
  typed : Bytes
  /-- Bytes printed, latest piece first. -/
  printed : List Bytes := []
  complaints : String := ""
  /-- What the logger sent, latest first. -/
  deliveries : List Log.Delivery := []

namespace InMemory

/-- All bytes printed. -/
def output (memory : InMemory) : Bytes := memory.printed.reverse.flatten

/-- Applies a change of the files. -/
def change (memory : InMemory) (answer : Except FileFailure FileTree) :
    Except FileFailure Unit × InMemory :=
  match answer with
  | .ok tree => (.ok (), { memory with tree })
  | .error failure => (.error failure, memory)

instance : Host (StateM InMemory) where
  readFile path := do return (← get).tree.read path
  makeFolder path := modifyGet fun memory => memory.change (memory.tree.makeFolder path)
  writeFile path bytes := modifyGet fun memory => memory.change (memory.tree.write path bytes)
  receive := modifyGet fun memory => (memory.typed, { memory with typed := [] })
  print bytes := modify fun memory => { memory with printed := bytes :: memory.printed }
  complain text := modify fun memory => { memory with complaints := memory.complaints ++ text }
  deliver delivery :=
    modify fun memory => { memory with deliveries := delivery :: memory.deliveries }

/-- Runs the program on files in memory. -/
def run (memory : InMemory) (environment : Environment) (arguments : List String) :
    Except (List Environment.Issue) Nat × InMemory :=
  (Command.start environment arguments : StateM InMemory _).run memory

end InMemory

end AdventureMachine
