/-! Command-line arguments: options, their values and plain operands. What one level does not know is
left over for the next, together with everything behind it. -/
namespace AdventureMachine

/-- An option of a command. -/
structure Flag where
  /-- The long form, dashes included. -/
  long : String
  /-- The short form, a dash and a letter. -/
  short : Option String := none
  /-- The name of the value that has to follow, if one has to. -/
  placeholder : Option String := none
deriving DecidableEq

namespace Flag

/-- How an option is written in messages about it. -/
def usage (flag : Flag) : String :=
  match flag.placeholder with
  | some name => flag.long ++ " <" ++ name ++ ">"
  | none => flag.long

/-- Whether an argument is this option. -/
def accepts (flag : Flag) (argument : String) : Bool :=
  flag.long == argument || flag.short == some argument

end Flag

namespace Arguments

/-- Whether an argument has the form of an option: a dash and something behind it. -/
def isOption (argument : String) : Bool :=
  match argument.toList with
  | '-' :: _ :: _ => true
  | _ => false

/-- What an argument says, given the options of a level. -/
inductive Reading where
  /-- An option without a value. -/
  | switch (flag : Flag)
  /-- An option whose value is the next argument. -/
  | awaits (flag : Flag)
  /-- An option that carries its value behind an equals sign. -/
  | setting (flag : Flag) (value : String)
  /-- Something with the form of an option that this level does not know. -/
  | unknown
  | operand

/-- An argument of the form `--name=value` taken apart. -/
def assignment? (argument : String) : Option (String × String) :=
  match argument.toList with
  | '-' :: '-' :: rest =>
    let name := rest.takeWhile (· != '=')
    match rest.drop name.length with
    | _ :: value => if name.isEmpty then none else some ("--" ++ String.ofList name, .ofList value)
    | [] => none
  | _ => none

/-- The option without a value to whose short form more letters are joined; those are passed over. -/
def joined? (flags : List Flag) (argument : String) : Option Flag :=
  match argument.toList with
  | dash :: letter :: _ :: _ =>
    flags.find? fun flag => flag.short == some (.ofList [dash, letter]) && flag.placeholder.isNone
  | _ => none

/-- Reads one argument. -/
def read (flags : List Flag) (argument : String) : Reading :=
  if !isOption argument then .operand
  else
    match flags.find? (·.accepts argument) with
    | some flag => if flag.placeholder.isSome then .awaits flag else .switch flag
    | none =>
      match joined? flags argument with
      | some flag => .switch flag
      | none =>
        match assignment? argument with
        | none => .unknown
        | some (name, value) =>
          match flags.find? (·.accepts name) with
          | some flag => if flag.placeholder.isSome then .setting flag value else .unknown
          | none => .unknown

/-- Arguments sorted by what they are. -/
structure Sorted where
  /-- Options in the order they were given, with their values. -/
  settings : List (Flag × String) := []
  operands : List String := []
  /-- From the first unknown option on, everything that was not recognized. -/
  unknown : List String := []
  /-- The option at the end whose value is missing. -/
  unfinished : Option Flag := none

/-- Puts an argument among the operands, or behind the first unknown option. -/
def Sorted.add (sorted : Sorted) (argument : String) : Sorted :=
  if sorted.unknown.isEmpty then { sorted with operands := sorted.operands ++ [argument] }
  else { sorted with unknown := sorted.unknown ++ [argument] }

/-- Adds an option with its value. -/
def Sorted.set (sorted : Sorted) (flag : Flag) (value : String) : Sorted :=
  { sorted with settings := sorted.settings ++ [(flag, value)] }

/-- Sorts arguments. Two dashes end the options. -/
def sort (flags : List Flag) (sorted : Sorted) : List String → Sorted
  | [] => sorted
  | "--" :: rest =>
    if sorted.unknown.isEmpty then { sorted with operands := sorted.operands ++ rest }
    else { sorted with unknown := sorted.unknown ++ "--" :: rest }
  | argument :: rest =>
    match read flags argument with
    | .operand => sort flags (sorted.add argument) rest
    | .unknown => sort flags { sorted with unknown := sorted.unknown ++ [argument] } rest
    | .switch flag => sort flags (sorted.set flag "") rest
    | .setting flag value => sort flags (sorted.set flag value) rest
    | .awaits flag =>
      match rest with
      | [] => { sorted with unfinished := some flag }
      | value :: rest => sort flags (sorted.set flag value) rest

end Arguments

end AdventureMachine
