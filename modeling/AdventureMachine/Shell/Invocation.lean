import AdventureMachine.Number.Reading
import AdventureMachine.Shell.Arguments

/-! What the command line is asked to do. -/
namespace AdventureMachine

/-- The puzzles that can be solved. -/
inductive Puzzle where
  | coins
  | teleporter
  | vault
  | passages
deriving DecidableEq

namespace Puzzle

/-- All puzzles, in the order they are offered. -/
def all : List Puzzle := [coins, teleporter, vault, passages]

/-- The name of a puzzle. -/
def name : Puzzle → String
  | coins => "coins"
  | teleporter => "teleporter"
  | vault => "vault"
  | passages => "passages"

/-- The puzzle with a given name. -/
def ofName? (name : String) : Option Puzzle := all.find? (·.name == name)

end Puzzle

/-- How a program is run. -/
structure RunOptions where
  snapshot : Option String
  script : Option String
  save : Option String
  trace : Bool
  maxSteps : Option Nat

/-- How a puzzle is solved. -/
structure SolveOptions where
  snapshot : Option String
  out : Option String
  command : Option String
  item : String

/-- A command with its arguments. A program that is not named comes from the settings. -/
inductive Invocation where
  | version
  | run (program : Option String) (options : RunOptions)
  | disassemble (program : Option String) (first count : Nat)
  | inspect (snapshot : String)
  | solve (puzzle : Puzzle) (options : SolveOptions)

namespace Invocation

/-- The version of the program. -/
def versionText : String := "0.1.0"

/-- What a value that counts something has to be. -/
def countRule : String := "Not a non-negative integer."

/-- Arguments that make no command. -/
inductive Mistake where
  | noCommand
  | missingValue (flag : Flag)
  | badCount (flag : Flag) (value : String)
  | unknownOption (argument : String)
  | unknownCommand (name : String)
  | missingArgument (name : String)
  | badChoice (value argument : String) (choices : List String)

/-- What is told about a mistake. -/
def Mistake.message : Mistake → String
  | noCommand => ""
  | missingValue flag => "error: option '" ++ flag.usage ++ "' argument missing\n"
  | badCount flag value =>
    "error: option '" ++ flag.usage ++ "' argument '" ++ value ++ "' is invalid. " ++ countRule ++
      "\n"
  | unknownOption argument => "error: unknown option '" ++ argument ++ "'\n"
  | unknownCommand name => "error: unknown command '" ++ name ++ "'\n"
  | missingArgument name => "error: missing required argument '" ++ name ++ "'\n"
  | badChoice value argument choices =>
    "error: command-argument value '" ++ value ++ "' is invalid for argument '" ++ argument ++
      "'. Allowed choices are " ++ ", ".intercalate choices ++ ".\n"

/-- Prints the version, wherever it stands. -/
def versionFlag : Flag := { long := "--version", short := some "-V" }

/-- Names a saved game. -/
def snapshotFlag : Flag := { long := "--snapshot", placeholder := some "file" }

/-- Names a file with input. -/
def scriptFlag : Flag := { long := "--script", placeholder := some "file" }

/-- Names the file to save to. -/
def saveFlag : Flag := { long := "--save", placeholder := some "file" }

/-- Logs every instruction. -/
def traceFlag : Flag := { long := "--trace" }

/-- Limits the number of instructions. -/
def maxStepsFlag : Flag := { long := "--max-steps", placeholder := some "n" }

/-- Names the first address of a listing. -/
def fromFlag : Flag := { long := "--from", placeholder := some "addr" }

/-- Limits the length of a listing. -/
def countFlag : Flag := { long := "--count", placeholder := some "n" }

/-- Names the file for the game after the solution. -/
def outFlag : Flag := { long := "--out", placeholder := some "file" }

/-- Gives the command that is sent first. -/
def commandFlag : Flag := { long := "--command", placeholder := some "text" }

/-- Names the item to look for. -/
def itemFlag : Flag := { long := "--item", placeholder := some "name" }

/-- Options whose value has to be a count. -/
def countFlags : List Flag := [maxStepsFlag, fromFlag, countFlag]

/-- The last value given for an option. -/
def value? (settings : List (Flag × String)) (flag : Flag) : Option String :=
  settings.reverse.lookup flag

/-- The last value given for an option, unless it is empty. -/
def filled? (settings : List (Flag × String)) (flag : Flag) : Option String :=
  (value? settings flag).filter (!·.isEmpty)

/-- The last count given for an option. -/
def counted? (settings : List (Flag × String)) (flag : Flag) : Option Nat :=
  (value? settings flag).bind readCount?

/-- The arguments of one command: those of its options that are counts have to be counts, and
nothing may be left over. Problems with values are found in the order of the arguments. -/
def accept (flags : List Flag) (operands rest : List String) :
    Except Mistake (List (Flag × String) × List String) :=
  let sorted := Arguments.sort flags {} rest
  let wrong := sorted.settings.find? fun (flag, value) =>
    countFlags.contains flag && (readCount? value).isNone
  match wrong, sorted.unfinished, sorted.unknown with
  | some (flag, value), _, _ => .error (.badCount flag value)
  | none, some flag, _ => .error (.missingValue flag)
  | none, none, argument :: _ => .error (.unknownOption argument)
  | none, none, [] => .ok (sorted.settings, operands ++ sorted.operands)

/-- Reads the arguments of `run`. -/
def parseRun (operands rest : List String) : Except Mistake Invocation := do
  let (settings, operands) ← accept
    [snapshotFlag, scriptFlag, saveFlag, traceFlag, maxStepsFlag] operands rest
  return .run operands.head?
    { snapshot := filled? settings snapshotFlag
      script := filled? settings scriptFlag
      save := filled? settings saveFlag
      trace := (value? settings traceFlag).isSome
      maxSteps := counted? settings maxStepsFlag }

/-- Reads the arguments of `disassemble`. -/
def parseDisassemble (operands rest : List String) : Except Mistake Invocation := do
  let (settings, operands) ← accept [fromFlag, countFlag] operands rest
  return .disassemble operands.head? ((counted? settings fromFlag).getD 0)
    ((counted? settings countFlag).getD 64)

/-- Reads the arguments of `inspect`. -/
def parseInspect (operands rest : List String) : Except Mistake Invocation := do
  let (_, operands) ← accept [] operands rest
  match operands with
  | [] => throw (.missingArgument "snapshot")
  | snapshot :: _ => return .inspect snapshot

/-- Reads the arguments of `solve`. -/
def parseSolve (operands rest : List String) : Except Mistake Invocation := do
  let (settings, operands) ← accept [snapshotFlag, outFlag, commandFlag, itemFlag] operands rest
  match operands with
  | [] => throw (.missingArgument "puzzle")
  | name :: _ =>
    match Puzzle.ofName? name with
    | none => throw (.badChoice name "puzzle" (Puzzle.all.map Puzzle.name))
    | some puzzle =>
      return .solve puzzle
        { snapshot := filled? settings snapshotFlag
          out := filled? settings outFlag
          command := value? settings commandFlag
          item := (value? settings itemFlag).getD "can" }

/-- Reads a command line. -/
def parse (arguments : List String) : Except Mistake Invocation :=
  let sorted := Arguments.sort [versionFlag] {} arguments
  if !sorted.settings.isEmpty then .ok .version
  else
    match sorted.operands with
    | "run" :: operands => parseRun operands sorted.unknown
    | "disassemble" :: operands => parseDisassemble operands sorted.unknown
    | "inspect" :: operands => parseInspect operands sorted.unknown
    | "solve" :: operands => parseSolve operands sorted.unknown
    | name :: _ => .error (.unknownCommand name)
    | [] =>
      match sorted.unknown with
      | argument :: _ => .error (.unknownOption argument)
      | [] => .error .noCommand

end Invocation

end AdventureMachine
