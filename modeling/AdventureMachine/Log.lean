import AdventureMachine.Number

/-! Log records and the values they carry. Operations return the records they produce next to
their answer; which of them are shown is decided where they are collected. -/
namespace AdventureMachine

/-- A value attached to a log record. -/
inductive Log.Value where
  | null
  | flag (value : Bool)
  | number (value : Number)
  | text (value : String)
  | list (items : List Log.Value)
  | record (fields : List (String × Log.Value))
  | error (kind message : String) (code : Option String) (context : Option (List (String × Log.Value)))
deriving Inhabited

namespace Log

/-- How urgent a record is. -/
inductive Level where
  | debug
  | info
  | warn
  | error
deriving DecidableEq

/-- The name of a level. -/
def Level.name : Level → String
  | .debug => "debug"
  | .info => "info"
  | .warn => "warn"
  | .error => "error"

/-- The rank of a level; a record is shown when its rank reaches the threshold. -/
def Level.rank : Level → Nat
  | .debug => 20
  | .info => 30
  | .warn => 40
  | .error => 50

/-- A message with its arguments. The first argument of an error record is the error itself. -/
structure Record where
  level : Level
  message : String
  arguments : List Value

/-- A whole number as a value. -/
def Value.count (value : Nat) : Value := .number (.ofNat value)

/-- A record with one argument of named fields. -/
def Record.ofFields (level : Level) (message : String) (fields : List (String × Value)) : Record :=
  ⟨level, message, [.record fields]⟩

end Log

/-- An answer together with the records produced on the way to it. -/
structure Logged (α : Type) where
  value : α
  journal : List Log.Record

namespace Logged

/-- An answer without records. -/
def quiet {α : Type} (value : α) : Logged α := ⟨value, []⟩

/-- A single record. -/
def note (record : Log.Record) : Logged Unit := ⟨(), [record]⟩

instance : Monad Logged where
  pure := quiet
  bind first next :=
    let second := next first.value
    ⟨second.value, first.journal ++ second.journal⟩

@[simp]
theorem value_pure {α : Type} (value : α) : (pure value : Logged α).value = value := rfl

@[simp]
theorem journal_pure {α : Type} (value : α) : (pure value : Logged α).journal = [] := rfl

@[simp]
theorem value_bind {α β : Type} (first : Logged α) (next : α → Logged β) :
    (first >>= next).value = (next first.value).value := rfl

@[simp]
theorem journal_bind {α β : Type} (first : Logged α) (next : α → Logged β) :
    (first >>= next).journal = first.journal ++ (next first.value).journal := rfl

end Logged

end AdventureMachine
