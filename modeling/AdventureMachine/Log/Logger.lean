import AdventureMachine.Log

/-! Where log records go. A level is configured by name. Until the logger is started, records appear
on the console; afterwards they are written to streams, errors to both of them. -/
namespace AdventureMachine

namespace Log

/-- The rank of a level name, `silent` above all; names outside the list have none. -/
def rank? (name : String) : Option Nat :=
  [("trace", 10), ("debug", 20), ("info", 30), ("warn", 40), ("error", 50), ("fatal", 60),
    ("silent", 70)].lookup name

/-- The level in force when none is configured. -/
def defaultLevel : Level := .info

/-- A record as it is written to a stream. -/
structure Entry where
  level : Nat
  /-- The error that the record reports, if one was given. -/
  error : Option Value
  /-- The arguments; the logger's own records have none. -/
  arguments : Option (List Value)
  message : String

/-- One message on its way out. -/
inductive Delivery where
  | console (level : Level) (text : String) (arguments : List Value)
  | output (entry : Entry)
  | errorOutput (entry : Entry)

/-- The upper-case name of a level. -/
def Level.title : Level → String
  | .debug => "DEBUG"
  | .info => "INFO"
  | .warn => "WARN"
  | .error => "ERROR"

/-- The text of a record on the console. -/
def Record.consoleText (record : Record) : String :=
  "[" ++ record.level.title ++ "] " ++ record.message

/-- The arguments of a record on the console; an error record without an error shows nothing in
its place. -/
def Record.consoleArguments (record : Record) : List Value :=
  match record.level, record.arguments with
  | .error, [] => [.null]
  | _, arguments => arguments

/-- An error as an entry shows it: a record with a message is described like an error. -/
def Value.described : Value → Value
  | .record fields =>
    match fields.lookup "message" with
    | some (.text _) => .record (("type", .text "Object") :: fields.filter (·.1 != "type"))
    | _ => .record fields
  | value => value

/-- The entry of a record; the error of an error record stands apart from its arguments. -/
def Record.entry (record : Record) : Entry :=
  match record.level with
  | .error =>
    ⟨record.level.rank, record.arguments.head?.map Value.described,
      some (record.arguments.drop 1), record.message⟩
  | _ => ⟨record.level.rank, none, some record.arguments, record.message⟩

end Log

/-- A logger: the configured level name, and what was fixed when it was last started. -/
structure Logger where
  setting : Option String
  /-- The least rank that the streams accept. -/
  threshold : Nat
  started : Bool

namespace Logger

/-- Why a logger can not be set up. -/
inductive Failure where
  | unknownDefault (name : String)
  | unknownLevel (name : String)

/-- What is told about a failure. -/
def Failure.message : Failure → String
  | unknownDefault name => "default level:" ++ name ++ " must be included in custom levels"
  | unknownLevel name => "unknown level " ++ name

/-- The name of the level in force; an empty setting counts as none. -/
def levelName (setting : Option String) : String :=
  match setting with
  | some name => if name.isEmpty then Log.defaultLevel.name else name
  | none => Log.defaultLevel.name

/-- A logger that has not been started. -/
def create (setting : Option String) : Except Failure Logger :=
  match Log.rank? (levelName setting) with
  | some threshold => .ok ⟨setting, threshold, false⟩
  | none => .error (.unknownDefault (levelName setting))

/-- A logger for the console alone, which takes any setting. -/
def console (setting : String) : Logger := ⟨some setting, 0, false⟩

/-- Whether messages of a named level pass the configured level. An unknown setting counts as the
default level, and an unknown name never passes. -/
def enables (logger : Logger) (name : String) : Bool :=
  let threshold := (Log.rank? (levelName logger.setting)).getD Log.defaultLevel.rank
  match Log.rank? name with
  | some rank => threshold ≤ rank
  | none => false

/-- Sends an entry to the streams, if they accept it. Errors go to the error output as well. -/
def emit (logger : Logger) (entry : Log.Entry) : List Log.Delivery :=
  if entry.level < logger.threshold then []
  else if entry.level < Log.Level.error.rank then [.output entry]
  else [.output entry, .errorOutput entry]

/-- Where a record goes. -/
def deliver (logger : Logger) (record : Log.Record) : List Log.Delivery :=
  if !logger.enables record.level.name then []
  else if logger.started then logger.emit record.entry
  else [.console record.level record.consoleText record.consoleArguments]

/-- Starts the logger with the level in force, which it announces to the streams. -/
def start (logger : Logger) : Except Failure (Logger × List Log.Delivery) :=
  match Log.rank? (levelName logger.setting) with
  | none => .error (.unknownLevel (levelName logger.setting))
  | some threshold =>
    let logger := { logger with threshold, started := true }
    .ok (logger, logger.emit ⟨Log.Level.debug.rank, none, none, "LoggerProvider initialized"⟩)

end Logger

end AdventureMachine
