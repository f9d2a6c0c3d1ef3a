import AdventureMachine.Log.Json
import AdventureMachine.Shell.Command

/-! The command line on a real system. Files, terminal and streams are reached here and nowhere
else. -/
namespace AdventureMachine

/-- The variables that the settings are read from. -/
def Environment.fromSystem : IO Environment := do
  let bindings ← Settings.names.filterMapM fun name => do
    return (← IO.getEnv name).map fun value => (name, value)
  return ⟨bindings⟩

/-- The failure behind a system error, told for the path that was used. -/
def FileFailure.ofSystem (folder : FileFailure) (path : String) (error : IO.Error) : FileFailure :=
  match error with
  | .noFileOrDirectory .. => .missing path
  | .inappropriateType .. => folder
  | .alreadyExists .. => .occupied path
  | error => .other "EIO" (toString error)

/-- Bytes up to the end of the line, or of the input. -/
partial def readLine (input : IO.FS.Stream) (line : ByteArray) : IO ByteArray := do
  let piece ← input.read 1
  if piece.isEmpty then return line
  else if piece.toList = [10] then return line ++ piece
  else readLine input (line ++ piece)

/-- Tries a system call and names its failure. -/
def trying {α : Type} (action : IO α) (failure : IO.Error → FileFailure) :
    IO (Except FileFailure α) := do
  try return .ok (← action)
  catch error => return .error (failure error)

instance : Host IO where
  readFile path := trying (return (← IO.FS.readBinFile path).toList) (.ofSystem .readsFolder path)
  makeFolder path := trying (IO.FS.createDirAll path) (.ofSystem (.notFolder "mkdir" path) path)
  writeFile path bytes :=
    trying (IO.FS.writeBinFile path ⟨bytes.toArray⟩) (.ofSystem (.writesFolder path) path)
  receive := do return (← readLine (← IO.getStdin) .empty).toList
  print bytes := do
    let output ← IO.getStdout
    output.write ⟨bytes.toArray⟩
    output.flush
  complain := IO.eprint
  deliver delivery :=
    match delivery with
    | .output entry => IO.println entry.json
    | .errorOutput entry => IO.eprintln entry.json
    | .console _ text _ => IO.println text

end AdventureMachine

open AdventureMachine in
/-- Runs the command line and answers with its exit code. -/
def main (arguments : List String) : IO UInt32 := do
  match ← Command.start (← Environment.fromSystem) arguments with
  | .ok code => return code.toUInt32
  | .error issues =>
    for issue in issues do
      IO.eprintln (issue.name ++ ": " ++ issue.message)
    return 1
