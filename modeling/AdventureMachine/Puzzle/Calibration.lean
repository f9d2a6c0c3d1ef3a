import AdventureMachine.Adventure
import AdventureMachine.Puzzle.Teleporter

/-! Calibrating the teleporter. The guest's check takes far too long to run. So the machine is driven
up to it, the call is left out, and the registers are set as a passed check would leave them. -/
namespace AdventureMachine

/-- Where the check sits in a program and how it is reached. -/
structure Calibration where
  /-- The instruction that loads the first parameter. -/
  checkPc : Number := 5483
  /-- The instruction behind the call of the check. -/
  resumePc : Number := 5491
  /-- The command that triggers the check, if one has to be sent. -/
  command : Option String := some "use teleporter"
  /-- A level other than zero, so that the guest takes the calibrated way. -/
  bogusLevel : Number := 0xca
  limit : Number := 10000000

namespace Calibration

/-- The register that holds the energy level. -/
def levelRegister : Number := 7

/-- The register in which the check returns its result. -/
def resultRegister : Number := 0

/-- The parameters of the check and the level that passes it. -/
structure Result where
  m : UInt16
  n : UInt16
  target : UInt16
  level : Nat
deriving DecidableEq

/-- Why a machine could not be calibrated. -/
inductive Failure where
  | machine (error : Error)
  | unreached (checkPc limit : Number)
  | halted (reason : HaltReason) (checkPc : Number)
  /-- No level meets the target; cells outside memory are missing. -/
  | unsolvable (m n target : Option UInt16)

/-- The text of a cell that may be missing. -/
def cellText : Option UInt16 → String
  | some word => decimal word.toNat
  | none => "undefined"

/-- What is told about a failure. -/
def Failure.message : Failure → String
  | machine error => error.message
  | unreached checkPc limit =>
    "Check at " ++ checkPc.decimal ++ " not reached in " ++ limit.decimal ++ " steps"
  | halted reason checkPc =>
    "Machine halted (" ++ reason.name ++ ") before reaching " ++ checkPc.decimal
  | unsolvable m n target =>
    "No register value gives f(" ++ cellText m ++ ", " ++ cellText n ++ ") = " ++ cellText target

/-- Steps a machine until it reaches the check, at most `budget` times. `journal` holds the records
so far, latest first. -/
def approach (plan : Calibration) :
    (budget : Nat) → Adventure → List Log.Record → Logged (Except Failure Unit × Adventure)
  | budget, game, journal =>
    if game.pc = plan.checkPc then ⟨(.ok (), game), journal.reverse⟩
    else
      match budget with
      | 0 => ⟨(.error (.unreached plan.checkPc plan.limit), game), journal.reverse⟩
      | budget + 1 =>
        let taken := game.loggedStep
        let journal := taken.journal.reverse ++ journal
        match taken.value with
        | (game, .ok none) => approach plan budget game journal
        | (game, .ok (some reason)) => ⟨(.error (.halted reason plan.checkPc), game), journal.reverse⟩
        | (game, .error error) => ⟨(.error (.machine error), game), journal.reverse⟩

/-- The word `distance` cells behind an address, unless it lies outside memory. -/
def cell? (memory : Memory) (address : Number) (distance : Int) : Option UInt16 :=
  ((address.shift distance).index? memorySize).map memory.get

/-- The record of a machine that stands at the check. -/
def reachedRecord (plan : Calibration) (m n target : Option UInt16) : Log.Record :=
  let field (name : String) (word : Option UInt16) : List (String × Log.Value) :=
    (word.map fun word => (name, .count word.toNat)).toList
  .ofFields .info "Reached teleporter check"
    (("pc", .number plan.checkPc) :: (field "m" m ++ field "n" n ++ field "target" target))

/-- The level that passes the check, if all parameters are present. -/
def solve (m n target : Option UInt16) : Except Failure Result :=
  match m, n, target with
  | some a, some b, some c =>
    match Teleporter.level? a.toNat b.toNat c.toNat 0 maxLiteral with
    | some level => .ok ⟨a, b, c, level⟩
    | none => .error (.unsolvable m n target)
  | _, _, _ => .error (.unsolvable m n target)

/-- Leaves the check as if it had been passed. -/
def resume (plan : Calibration) (game : Adventure) (result : Result) : Except Error Adventure := do
  let game ← Machine.setRegister { game with pc := plan.resumePc } resultRegister
    (.ofWord result.target)
  game.setRegister levelRegister (.ofNat result.level)

/-- Computes the level at the check and resumes behind it. -/
def finish (plan : Calibration) (game : Adventure) : Logged (Except Failure Result × Adventure) := do
  let m := cell? game.memory plan.checkPc 2
  let n := cell? game.memory plan.checkPc 5
  let target := cell? game.memory plan.resumePc 3
  Logged.note (plan.reachedRecord m n target)
  match solve m n target with
  | .error failure => return (.error failure, game)
  | .ok result =>
    match plan.resume game result with
    | .error error => return (.error (.machine error), { game with pc := plan.resumePc })
    | .ok game =>
      Logged.note (.ofFields .info "Calibrated teleporter" [("r7", .count result.level)])
      return (.ok result, game)

/-- Drives the machine to the check, skips the call and sets the registers. Parameters are read from
the instructions at the check, the target from the comparison behind the call. -/
def run (plan : Calibration) (game : Adventure) : Logged (Except Failure Result × Adventure) :=
  match game.setRegister levelRegister plan.bogusLevel with
  | .error error => .quiet (.error (.machine error), game)
  | .ok game => do
    let game := match plan.command with
      | some command => Adventure.send game command
      | none => game
    let (answer, game) ← plan.approach plan.limit.budget game []
    match answer with
    | .error failure => return (.error failure, game)
    | .ok () => plan.finish game

end Calibration

end AdventureMachine
