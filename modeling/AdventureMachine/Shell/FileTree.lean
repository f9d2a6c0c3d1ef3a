import AdventureMachine.Shell.Host
import AdventureMachine.Shell.Path

/-! Files and folders kept in memory, below a working folder. The folders above it exist too, with
nothing known in them. -/
namespace AdventureMachine

/-- Files and folders by the parts of their paths. -/
structure FileTree where
  files : List (List String × Bytes)
  folders : List (List String)

namespace FileTree

/-- What is found at a place. -/
inductive Entry where
  | file (bytes : Bytes)
  | folder
  | nothing

/-- Whether a place is the working folder or one above it. -/
def isAbove (place : List String) : Bool := place.all (· == "..")

/-- Looks a place up. -/
def entry (tree : FileTree) (place : List String) : Entry :=
  match tree.files.lookup place with
  | some bytes => .file bytes
  | none =>
    if isAbove place || tree.folders.contains place then .folder else .nothing

/-- The parts of a path as texts. -/
def parts (path : String) : List String := (Path.pieces path.toList).map .ofList

/-- Goes from a folder to the place that one part of a path names. -/
def descend (place : List String) (part : String) : List String :=
  if part = "" || part = "." then place
  else if part = ".." && !isAbove place then place.dropLast
  else place ++ [part]

/-- Why no place is reached. -/
inductive Obstacle where
  | missing
  | notFolder

/-- Goes along the parts of a path; every place that is left has to be a folder. -/
def walk (tree : FileTree) (place : List String) : List String → Except Obstacle (List String)
  | [] => .ok place
  | part :: rest =>
    match tree.entry place with
    | .folder => walk tree (descend place part) rest
    | .file _ => .error .notFolder
    | .nothing => .error .missing

/-- The place that a path names. Paths that start at the root lead out of the tree. -/
def locate (tree : FileTree) (path : String) : Except Obstacle (List String) :=
  if path = "" || "/".toList.isPrefixOf path.toList then .error .missing
  else tree.walk [] (parts path)

/-- The content of a file. -/
def read (tree : FileTree) (path : String) : Except FileFailure Bytes :=
  match tree.locate path with
  | .error .missing => .error (.missing path)
  | .error .notFolder => .error (.notFolder "open" path)
  | .ok place =>
    match tree.entry place with
    | .file bytes => .ok bytes
    | .folder => .error .readsFolder
    | .nothing => .error (.missing path)

/-- Replaces or adds a file. -/
def put (tree : FileTree) (place : List String) (bytes : Bytes) : FileTree :=
  { tree with files := (place, bytes) :: tree.files.filter (·.1 != place) }

/-- Writes a file; its folder has to exist. A path that ends in a separator names a folder. -/
def write (tree : FileTree) (path : String) (bytes : Bytes) : Except FileFailure FileTree :=
  match tree.locate path with
  | .error .missing =>
    .error (if "/".toList.isSuffixOf path.toList then .writesFolder path else .missing path)
  | .error .notFolder => .error (.notFolder "open" path)
  | .ok place =>
    match tree.entry place with
    | .folder => .error (.writesFolder path)
    | _ => .ok (tree.put place bytes)

/-- Makes the folders along the parts of a path. -/
def raise (tree : FileTree) (path : String) (place : List String) :
    List String → Except FileFailure FileTree
  | [] =>
    match tree.entry place with
    | .folder => .ok tree
    | .file _ => .error (.occupied path)
    | .nothing => .ok { tree with folders := place :: tree.folders }
  | part :: rest =>
    match tree.entry place with
    | .folder => raise tree path (descend place part) rest
    | .file _ => .error (.notFolder "mkdir" path)
    | .nothing =>
      raise { tree with folders := place :: tree.folders } path (descend place part) rest

/-- Makes a folder and those it lies in. -/
def makeFolder (tree : FileTree) (path : String) : Except FileFailure FileTree :=
  tree.raise path [] (parts path)

/-- A tree of given files and folders; the folders above them exist too. -/
def ofLists (files : List (String × Bytes)) (folders : List String) : FileTree :=
  let above (path : String) : List (List String) :=
    let place := (parts path).foldl descend []
    (List.range place.length).map fun count => place.take count
  { files := files.map fun (path, bytes) => ((parts path).foldl descend [], bytes)
    folders := files.flatMap (above ·.1) ++
      folders.flatMap fun path => (parts path).foldl descend [] :: above path }

end FileTree

end AdventureMachine
