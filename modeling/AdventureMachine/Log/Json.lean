import AdventureMachine.Log.Logger
import AdventureMachine.Number.Text

/-! Stream entries as lines of JSON. -/
namespace AdventureMachine.Log

/-- A character inside a quoted text. -/
def quotedChar (c : Char) : List Char :=
  if c = '\x22' || c = '\\' then ['\\', c]
  else if c = '\n' then ['\\', 'n']
  else if c = '\r' then ['\\', 'r']
  else if c = '\t' then ['\\', 't']
  else if c.toNat < 32 then ['\\', 'u'] ++ Number.padded 16 4 c.toNat
  else [c]

/-- A text in double quotes. -/
def quoted (text : String) : String :=
  .ofList ('\x22' :: text.toList.flatMap quotedChar ++ ['\x22'])

/-- A named value. -/
def member (name written : String) : String := quoted name ++ ":" ++ written

/-- Members in braces. -/
def braced (members : List String) : String := "\x7b" ++ ",".intercalate members ++ "\x7d"

mutual

/-- A value as JSON; an error shows its kind, its message and its code. -/
def Value.json : Value → String
  | .null => "null"
  | .flag true => "true"
  | .flag false => "false"
  | .number value => value.decimal
  | .text value => quoted value
  | .list items => "[" ++ ",".intercalate (itemsJson items) ++ "]"
  | .record fields => braced (fieldsJson fields)
  | .error kind message code _ =>
    braced ([member "type" (quoted kind), member "message" (quoted message)] ++
      (code.map fun code => member "code" (quoted code)).toList)

/-- Values as JSON, one by one. -/
def itemsJson : List Value → List String
  | [] => []
  | value :: rest => value.json :: itemsJson rest

/-- Named values as members, one by one. -/
def fieldsJson : List (String × Value) → List String
  | [] => []
  | (name, value) :: rest => member name value.json :: fieldsJson rest

end

/-- An entry as one line. -/
def Entry.json (entry : Entry) : String :=
  braced ([member "level" (decimal entry.level)] ++
    (entry.error.map fun error => member "err" error.json).toList ++
    (entry.arguments.map fun arguments => member "args" (Value.list arguments).json).toList ++
    [member "msg" (quoted entry.message)])

end AdventureMachine.Log
