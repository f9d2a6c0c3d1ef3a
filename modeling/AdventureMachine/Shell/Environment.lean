import AdventureMachine.Number.Reading
import AdventureMachine.Text.Blank
import AdventureMachine.Text.Search

/-! Settings from environment variables. A file of assignments can supply variables that are not
set. Every variable is checked, and all problems are reported together. -/
namespace AdventureMachine

/-- Variables by name; of two with the same name the first counts. -/
structure Environment where
  bindings : List (String × String)

namespace Environment

/-- The value of a variable, if it is set. -/
def get? (environment : Environment) (name : String) : Option String :=
  environment.bindings.lookup name

/-- Characters of a variable name in a file of assignments. -/
def isNameChar (c : Char) : Bool := c.isAlphanum || c == '_' || c == '.' || c == '-'

/-- Characters that can stand around a value. -/
def isQuote (c : Char) : Bool := c == '\x22' || c == '\x27' || c == '\x60'

/-- The value between two equal quotes, when only a comment follows. -/
def quotedValue? (text : List Char) : Option (List Char) :=
  match text with
  | [] => none
  | quote :: rest =>
    let value := rest.takeWhile (· != quote)
    match rest.drop value.length with
    | [] => none
    | _ :: behind =>
      let behind := Text.trim behind
      if isQuote quote && (behind.isEmpty || behind.head? = some '#') then some value else none

/-- The value written behind the sign of an assignment. A hash starts a comment. -/
def assignedValue (text : List Char) : String :=
  let text := Text.trim text
  match quotedValue? text with
  | some value => .ofList value
  | none => .ofList (Text.trim (text.takeWhile (· != '#')))

/-- The assignment in a line, if it holds one. -/
def assignment? (line : List Char) : Option (String × String) :=
  let line := line.dropWhile Text.isBlank
  let line :=
    if "export".toList.isPrefixOf line && ((line.drop 6).head?.map Text.isBlank).getD false then
      (line.drop 6).dropWhile Text.isBlank
    else line
  let name := line.takeWhile isNameChar
  let rest := line.drop name.length
  if name.isEmpty then none
  else
    match rest.dropWhile Text.isBlank, rest with
    | '=' :: value, _ => some (.ofList name, assignedValue value)
    | _, ':' :: blank :: value =>
      if Text.isBlank blank then some (.ofList name, assignedValue value) else none
    | _, _ => none

/-- The assignments in a text, in the order of its lines. -/
def assignments (text : String) : List (String × String) :=
  let breaks := text.toList.map fun c => if c = '\r' then '\n' else c
  (Text.lines breaks).filterMap assignment?

/-- Variables with those of a file behind them: set variables win, even empty ones, and of two
assignments in the file the later. -/
def withFile (environment : Environment) (file : String) : Environment :=
  ⟨environment.bindings ++ (assignments file).reverse⟩

/-- A problem with a variable. -/
inductive Issue where
  | notAllowed (name : String) (allowed : List String) (received : String)
  | empty (name : String)
  | notNumber (name : String)
  | notWhole (name : String)
  | notPositive (name : String)
deriving DecidableEq

namespace Issue

/-- The variable that has the problem. -/
def name : Issue → String
  | notAllowed name .. | empty name | notNumber name | notWhole name | notPositive name => name

/-- The kind of a problem. -/
def code : Issue → String
  | notAllowed .. => "invalid_enum_value"
  | empty _ | notPositive _ => "too_small"
  | notNumber _ | notWhole _ => "invalid_type"

/-- What is told about a problem. -/
def message : Issue → String
  | notAllowed _ allowed received =>
    "Invalid enum value. Expected " ++ " | ".intercalate (allowed.map fun value => "'" ++ value ++ "'")
      ++ ", received '" ++ received ++ "'"
  | empty _ => "String must contain at least 1 character(s)"
  | notNumber _ => "Expected number, received nan"
  | notWhole _ => "Expected integer, received float"
  | notPositive _ => "Number must be greater than 0"

end Issue

/-- A checked variable, or the problems with it. -/
abbrev Checked (α : Type) := Except (List Issue) α

/-- Both of two checked values, with the problems of both. -/
def Checked.and {α β : Type} : Checked α → Checked β → Checked (α × β)
  | .ok first, .ok second => .ok (first, second)
  | .ok _, .error issues => .error issues
  | .error issues, .ok _ => .error issues
  | .error first, .error second => .error (first ++ second)

/-- A variable with one of a few values. -/
def choice (environment : Environment) (name : String) (allowed : List String)
    (default : String) : Checked String :=
  match environment.get? name with
  | none => .ok default
  | some value =>
    if allowed.contains value then .ok value else .error [.notAllowed name allowed value]

/-- A variable that must not be empty. -/
def text (environment : Environment) (name default : String) : Checked String :=
  match environment.get? name with
  | none => .ok default
  | some value => if value.isEmpty then .error [.empty name] else .ok value

/-- A variable that must be a positive whole number when it is set. -/
def positive (environment : Environment) (name : String) : Checked (Option Number) :=
  match environment.get? name with
  | none => .ok none
  | some value =>
    match Numeral.read value with
    | .unreadable => .error [.notNumber name]
    | .infinite negative =>
      .error (.notWhole name :: if negative then [.notPositive name] else [])
    | .finite (.whole value) =>
      if 0 < value then .ok (some (.whole value)) else .error [.notPositive name]
    | .finite (.fraction numerator _) =>
      .error (.notWhole name :: if numerator < 0 then [.notPositive name] else [])

end Environment

/-- What every program reads from the environment. -/
structure BaseSettings where
  mode : String
  logLevel : String

/-- What the command line reads from the environment. -/
structure Settings extends BaseSettings where
  /-- The program that is run when none is named. -/
  program : String
  /-- The directory for saved games. -/
  snapshotFolder : String
  stepLimit : Option Number

/-- The variables that the settings are read from. -/
def Settings.names : List String :=
  ["NODE_ENV", "LOG_LEVEL", "VM_PROGRAM", "VM_SNAPSHOT_DIR", "VM_STEP_LIMIT"]

/-- Reads the settings that every program has. -/
def BaseSettings.read (environment : Environment) : Environment.Checked BaseSettings :=
  let mode := environment.choice "NODE_ENV" ["development", "production", "test"] "development"
  let logLevel := environment.choice "LOG_LEVEL"
    ["trace", "debug", "info", "warn", "error", "silent"] "info"
  (mode.and logLevel).map fun (mode, logLevel) => ⟨mode, logLevel⟩

/-- Reads the settings of the command line. -/
def Settings.read (environment : Environment) : Environment.Checked Settings :=
  let base := BaseSettings.read environment
  let program := environment.text "VM_PROGRAM" "challenge.bin"
  let folder := environment.text "VM_SNAPSHOT_DIR" "snapshots"
  let limit := environment.positive "VM_STEP_LIMIT"
  (base.and (program.and (folder.and limit))).map fun (base, program, snapshotFolder, stepLimit) =>
    { base with program, snapshotFolder, stepLimit }

end AdventureMachine
