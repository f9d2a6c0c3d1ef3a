import AdventureMachine.Bytes
import AdventureMachine.Log.Logger

/-! What a command needs from its surroundings: files, the terminal and a place for log records. -/
namespace AdventureMachine

/-- Why a file or a folder could not be used. -/
inductive FileFailure where
  | missing (path : String)
  /-- A part of the path that is not the last is a file. -/
  | notFolder (action path : String)
  | readsFolder
  | writesFolder (path : String)
  /-- A folder is to be made where a file is. -/
  | occupied (path : String)
  | other (code message : String)
deriving DecidableEq

namespace FileFailure

/-- The system's name for a failure. -/
def code : FileFailure → String
  | missing _ => "ENOENT"
  | notFolder .. => "ENOTDIR"
  | readsFolder | writesFolder _ => "EISDIR"
  | occupied _ => "EEXIST"
  | other code _ => code

/-- What is told about a failure. -/
def message : FileFailure → String
  | missing path => "ENOENT: no such file or directory, open '" ++ path ++ "'"
  | notFolder action path => "ENOTDIR: not a directory, " ++ action ++ " '" ++ path ++ "'"
  | readsFolder => "EISDIR: illegal operation on a directory, read"
  | writesFolder path => "EISDIR: illegal operation on a directory, open '" ++ path ++ "'"
  | occupied path => "EEXIST: file already exists, mkdir '" ++ path ++ "'"
  | other _ message => message

end FileFailure

/-- The surroundings of a command. -/
class Host (m : Type → Type) where
  readFile : String → m (Except FileFailure Bytes)
  /-- Makes a folder and those it lies in, as far as they are missing. -/
  makeFolder : String → m (Except FileFailure Unit)
  writeFile : String → Bytes → m (Except FileFailure Unit)
  /-- More bytes typed at the terminal; none at the end of input. -/
  receive : m Bytes
  /-- Shows bytes at the terminal. -/
  print : Bytes → m Unit
  /-- Shows a message about a mistake. -/
  complain : String → m Unit
  deliver : Log.Delivery → m Unit

end AdventureMachine
