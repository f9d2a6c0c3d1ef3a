import AdventureMachine.Machine

/-! Running a machine: steps until it halts, faults, or a budget of committed steps is spent. -/
namespace AdventureMachine

/-- What a run leaves behind. -/
structure Run (σ τ : Type) where
  machine : Machine σ τ
  /-- The failure that ended the run, or the halt reason, `none` when the budget was spent. -/
  outcome : Machine.Outcome
  /-- Steps committed in this run. -/
  steps : Nat

namespace Machine

variable {σ τ : Type}

/-- The budget of a run without a limit, which no process lives to spend. -/
def unlimited : Nat := Nat.pow 2 62

/-- The budget for an optional limit. -/
def budgetOf (limit : Option Number) : Nat :=
  match limit with
  | some limit => limit.budget
  | none => unlimited

/-- The record of a fault that ended a run. -/
def faultRecord (machine : Machine σ τ) (error : Error) : Log.Record :=
  ⟨.error, "Execution fault",
    [error.toLog, .record [("pc", .number machine.pc), ("code", .text error.code)]]⟩

/-- Steps at most `budget` times; `steps` were committed before and `journal` holds the records so
far, latest first. -/
@[specialize]
def runFrom [ByteSource σ] [ByteSink τ] :
    Nat → Machine σ τ → (steps : Nat) → (journal : List Log.Record) → Logged (Run σ τ)
  | 0, machine, steps, journal => ⟨⟨machine, .ok none, steps⟩, journal.reverse⟩
  | budget + 1, machine, steps, journal =>
    let journal := match machine.traceRecord? with
      | some record => record :: journal
      | none => journal
    match machine.step with
    | (machine, .ok none) => runFrom budget machine (steps + 1) journal
    | (machine, .ok (some reason)) => ⟨⟨machine, .ok (some reason), steps⟩, journal.reverse⟩
    | (machine, .error error) =>
      let record := machine.faultRecord error
      ⟨⟨machine, .error error, steps⟩, (record :: journal).reverse⟩

/-- Runs a machine within a budget of committed steps. -/
@[specialize]
def run [ByteSource σ] [ByteSink τ] (budget : Nat) (machine : Machine σ τ) : Logged (Run σ τ) :=
  runFrom budget machine 0 []

end Machine

end AdventureMachine
