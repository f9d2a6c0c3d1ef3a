import AdventureMachine.Shell.Path
import AdventureMachine.Shell.Solution
import AdventureMachine.Text.Utf8

/-! The commands: run a program, list one, show a saved game, solve a puzzle. Each answers with an
exit code, zero when all went well. -/
namespace AdventureMachine.Command

variable {m : Type → Type} [Monad m] [Host m]

/-- What all commands share. -/
structure Context where
  settings : Settings
  logger : Logger

/-- Hands a record to the logger. -/
def report (context : Context) (record : Log.Record) : m Unit :=
  (context.logger.deliver record).forM Host.deliver

/-- Hands the records of an answer to the logger. -/
def collect {α : Type} (context : Context) (answer : Logged α) : m α := do
  answer.journal.forM (report context)
  return answer.value

/-- Reports a trouble and answers with the exit code for it. -/
def fail (context : Context) (message : String) (trouble : Trouble) : m Nat := do
  report context ⟨.error, message, [trouble.toLog]⟩
  return 1

/-- Shows a text. -/
def say (text : String) : m Unit := Host.print (Text.toUtf8 text)

/-- The bytes of a file. -/
def readBytes (path : String) : m (Except Trouble Bytes) := do
  return (← Host.readFile path).mapError (.unreadable path)

/-- Writes a file, in a folder that is made if need be. -/
def writeBytes (context : Context) (path : String) (bytes : Bytes) : m (Except Trouble Unit) := do
  match ← Host.makeFolder (Path.directory path) with
  | .error failure => return .error (.noFolder failure)
  | .ok () =>
    match ← Host.writeFile path bytes with
    | .error failure => return .error (.unwritable path failure)
    | .ok () =>
      report context (.ofFields .info "Wrote file"
        [("path", .text path), ("bytes", .count bytes.length)])
      return .ok ()

/-- Saves a game under a name. -/
def save (context : Context) (name : String) (state : State) : m (Except Trouble Unit) :=
  match state.save with
  | .error counter => return .error (.unsavable counter)
  | .ok bytes => writeBytes context (Path.ofSnapshot name context.settings.snapshotFolder) bytes

/-- Saves a game under a name if one is given, and answers with `code` when that went well. -/
def saveTo (context : Context) (name : Option String) (state : State) (code : Nat) : m Nat := do
  match name with
  | none => return code
  | some name =>
    match ← save context name state with
    | .error trouble => fail context "Failed to save snapshot" trouble
    | .ok () => return code

/-- Steps between two looks at the output. -/
def slice : Nat := 1000000

/-- Runs a machine and shows its output as it goes. With a terminal, input is asked for whenever
there is none left; the instruction that waited for it was logged already. -/
def operate (context : Context) (interactive : Bool) :
    (rounds : Nat) → (waiting : Bool) → (budget steps : Nat) → Adventure →
      m (Adventure × Machine.Outcome × Nat)
  | 0, _, _, steps, game => return (game, .ok none, steps)
  | rounds + 1, waiting, budget, steps, game => do
    let tracing := game.tracing
    let run ← collect context <|
      if waiting then Machine.run (min 1 budget) { game with tracing := false }
      else Machine.run (min slice budget) game
    Host.print run.machine.sink.bytes
    let game : Adventure := { run.machine with sink := .empty, tracing }
    let budget := budget - run.steps
    let steps := steps + run.steps
    match run.outcome with
    | .ok none =>
      if budget = 0 then return (game, .ok none, steps)
      else operate context interactive rounds false budget steps game
    | .ok (some .inputExhausted) =>
      let bytes ← if interactive then Host.receive else pure []
      if bytes.isEmpty then return (game, .ok (some .inputExhausted), steps)
      else
        let game := { game with source := game.source.append bytes }
        operate context interactive rounds true budget steps game
    | outcome => return (game, outcome, steps)

/-- The machine that `run` starts: a saved game if one is named, else a program. -/
def loadMachine (context : Context) (program : String) (options : RunOptions)
    (input : BufferedInput) : m (Except Trouble Adventure) := do
  match options.snapshot with
  | some name =>
    let path := Path.ofSnapshot name context.settings.snapshotFolder
    match ← readBytes path with
    | .error trouble => return .error trouble
    | .ok bytes =>
      report context (.ofFields .info "Resuming snapshot" [("path", .text path)])
      let answer ← collect context (Machine.loggedOfSnapshot bytes input .empty options.trace)
      return answer.mapError .machine
  | none =>
    match ← readBytes program with
    | .error trouble => return .error trouble
    | .ok image =>
      report context (.ofFields .info "Loading program"
        [("path", .text program), ("bytes", .count image.length)])
      let answer ← collect context (Machine.loggedOfImage image input .empty options.trace)
      return answer.mapError .machine

/-- The record of a machine that stopped without a fault. -/
def stoppedRecord (game : Adventure) (reason : Option HaltReason) (steps : Nat) : Log.Record :=
  let reason : Log.Value := match reason with
    | some reason => .text reason.name
    | none => .null
  .ofFields .info "Machine stopped"
    [("haltReason", reason), ("steps", .count steps), ("pc", .number game.pc)]

/-- The input to begin with: a script if one is named, else nothing. -/
def loadScript (script : Option String) : m (Except Trouble BufferedInput) := do
  match script with
  | none => return .ok .empty
  | some path => return (← readBytes path).map fun bytes => .ofText (Text.ofUtf8 bytes)

/-- Runs a program or a saved game. -/
def run (context : Context) (program : String) (options : RunOptions) : m Nat := do
  match ← loadScript options.script with
  | .error trouble => fail context "Failed to load input script" trouble
  | .ok input =>
    match ← loadMachine context program options input with
    | .error trouble => fail context "Failed to start machine" trouble
    | .ok game =>
      let limit := options.maxSteps.map Number.ofNat <|> context.settings.stepLimit
      let (game, outcome, steps) ← operate context options.script.isNone Machine.unlimited false
        (Machine.budgetOf limit) 0 game
      match outcome with
      | .error _ => saveTo context options.save game.toState 1
      | .ok reason =>
        report context (stoppedRecord game reason steps)
        saveTo context options.save game.toState 0

/-- Prints a listing of a program. -/
def disassemble (context : Context) (program : String) (first count : Nat) : m Nat := do
  match ← readBytes program with
  | .error trouble => fail context "Failed to read program" trouble
  | .ok image =>
    match ← collect context (Image.loggedDecode image) with
    | .error error => fail context "Failed to decode program" (.machine error)
    | .ok words =>
      say (Listing.render (Listing.lines words.toArray (.ofNat first) count) ++ "\n")
      return 0

/-- Prints what a saved game holds. -/
def inspect (context : Context) (name : String) : m Nat := do
  match ← readBytes (Path.ofSnapshot name context.settings.snapshotFolder) with
  | .error trouble => fail context "Failed to read snapshot" trouble
  | .ok bytes =>
    match ← collect context (Snapshot.loggedDecode bytes) with
    | .error error => fail context "Failed to decode snapshot" (.machine error)
    | .ok snapshot =>
      say (snapshot.summary ++ "\n")
      return 0

/-- Works out a puzzle. -/
def findSolution (context : Context) (puzzle : Puzzle) (options : SolveOptions) :
    m (Except Trouble Solution) := do
  match puzzle, options.snapshot with
  | .coins, _ => collect context Solution.coins.run
  | _, none => return .error .noSnapshot
  | puzzle, some name =>
    match ← readBytes (Path.ofSnapshot name context.settings.snapshotFolder) with
    | .error trouble => return .error trouble
    | .ok bytes =>
      match ← collect context (Adventure.ofSnapshot bytes "" false) with
      | .error error => return .error (.machine error)
      | .ok game =>
        collect context (Solution.ofGame puzzle context.settings.stepLimit options game).run

/-- Solves a puzzle and prints the commands for it. -/
def solve (context : Context) (puzzle : Puzzle) (options : SolveOptions) : m Nat := do
  match ← findSolution context puzzle options with
  | .error trouble => fail context ("Failed to solve " ++ puzzle.name) trouble
  | .ok solution =>
    say (String.join (solution.lines.map (· ++ "\n")))
    match solution.game with
    | none => return 0
    | some game => saveTo context options.out game.toState 0

/-- Does what was asked for. -/
def execute (context : Context) (invocation : Invocation) : m Nat :=
  match invocation with
  | .version => do
    say (Invocation.versionText ++ "\n")
    return 0
  | .run program options => run context (program.getD context.settings.program) options
  | .disassemble program first count =>
    disassemble context (program.getD context.settings.program) first count
  | .inspect snapshot => inspect context snapshot
  | .solve puzzle options => solve context puzzle options

/-- The whole program: settings first, then the logger, then the command. Problems with the settings
are returned as they are. -/
def start (environment : Environment) (arguments : List String) :
    m (Except (List Environment.Issue) Nat) := do
  let file ← Host.readFile ".env"
  let environment := match file with
    | .ok bytes => environment.withFile (Text.ofUtf8 bytes)
    | .error _ => environment
  match Settings.read environment with
  | .error issues => return .error issues
  | .ok settings =>
    let idle : Logger := ⟨some settings.logLevel, 0, false⟩
    let logger ← match idle.start with
      | .error _ => pure idle
      | .ok (logger, deliveries) => do
        deliveries.forM Host.deliver
        pure logger
    match Invocation.parse arguments with
    | .error mistake =>
      Host.complain mistake.message
      return .ok 1
    | .ok invocation => return .ok (← execute ⟨settings, logger⟩ invocation)

end AdventureMachine.Command
