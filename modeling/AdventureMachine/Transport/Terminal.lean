import AdventureMachine.Number.Text
import AdventureMachine.Transport

/-! Endpoints on a file descriptor, described by the answers of its system calls. Interrupted and
would-block answers are tried again; any other failure is reported with its cause. -/
namespace AdventureMachine

/-- A failed system call. -/
structure SystemFailure where
  code : String
  message : String

/-- Whether a failed call is simply made again. -/
def SystemFailure.isRetried (failure : SystemFailure) : Bool :=
  failure.code == "EAGAIN" || failure.code == "EINTR"

/-- The answer of one system read or write. -/
inductive SystemAnswer (α : Type) where
  | done (value : α)
  | failed (failure : SystemFailure)

/-- Input from a descriptor; behind the listed answers is the end of the file. -/
structure TerminalInput where
  descriptor : Nat
  answers : List (SystemAnswer UInt8)

namespace TerminalInput

/-- Reads until a call is answered for good. -/
def read (descriptor : Nat) :
    List (SystemAnswer UInt8) → Except Error (Option UInt8) × List (SystemAnswer UInt8)
  | [] => (.ok none, [])
  | .done byte :: rest => (.ok (some byte), rest)
  | .failed failure :: rest =>
    if failure.isRetried then read descriptor rest
    else (.error (.transport ("Failed to read from fd " ++ decimal descriptor) failure.message), rest)

theorem length_read_lt {descriptor : Nat} {answers : List (SystemAnswer UInt8)} {byte : UInt8}
    (answer : (read descriptor answers).1 = .ok (some byte)) :
    (read descriptor answers).2.length < answers.length := by
  induction answers with
  | nil => cases answer
  | cons head rest ih =>
    cases head with
    | done value => simp [read]
    | failed failure =>
      simp only [read] at answer ⊢
      split at answer
      · rename_i retried
        rw [if_pos retried]
        exact Nat.lt_succ_of_lt (ih answer)
      · cases answer

instance : ByteSource TerminalInput where
  readByte input :=
    let (answer, rest) := read input.descriptor input.answers
    (answer, { input with answers := rest })
  remaining input := input.answers.length
  remaining_lt := fun _ _ answer => length_read_lt answer

end TerminalInput

/-- Output to a descriptor; behind the listed answers every write succeeds. -/
structure TerminalOutput where
  descriptor : Nat
  answers : List (SystemAnswer Unit)
  written : Array UInt8

namespace TerminalOutput

/-- Calls until one is answered for good; that answer and those behind it. -/
def attempt (descriptor : Nat) :
    List (SystemAnswer Unit) → Except Error Unit × List (SystemAnswer Unit)
  | [] => (.ok (), [])
  | .done () :: rest => (.ok (), rest)
  | .failed failure :: rest =>
    if failure.isRetried then attempt descriptor rest
    else (.error (.transport ("Failed to write to fd " ++ decimal descriptor) failure.message), rest)

/-- Writes one byte. -/
def write (output : TerminalOutput) (byte : UInt8) : Except Error Unit × TerminalOutput :=
  match attempt output.descriptor output.answers with
  | (.ok (), rest) => (.ok (), { output with answers := rest, written := output.written.push byte })
  | (.error error, rest) => (.error error, { output with answers := rest })

instance : ByteSink TerminalOutput where
  writeByte := write

end TerminalOutput

end AdventureMachine
