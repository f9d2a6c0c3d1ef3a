/-! Paths with a slash between their parts: the directory of a path, and paths put together and
simplified. -/
namespace AdventureMachine.Path

/-- The mark between two parts of a path. -/
def separator : Char := '/'

/-- Whether a character separates two parts. -/
def isSeparator (c : Char) : Bool := c == separator

/-- A path without its last part and the separator in front of it. A single dot stands for a path
of one part; trailing separators do not count. -/
def directory (path : String) : String :=
  match path.toList with
  | [] => "."
  | first :: rest =>
    match (rest.reverse.dropWhile isSeparator).dropWhile (!isSeparator ·) with
    | [] => if isSeparator first then "/" else "."
    | _ :: front =>
      if isSeparator first && front.isEmpty then "//" else .ofList (first :: front.reverse)

/-- The pieces of a path between separators, empty ones included. -/
def pieces (path : List Char) : List (List Char) := path.splitOnP isSeparator

/-- The part that stands for the directory above. -/
def parent : List Char := ['.', '.']

/-- Adds a part to a simplified path, last part first. Going up takes the last part away; where
there is none, it is kept in a relative path and dropped in an absolute one. -/
def enter (absolute : Bool) (parts : List (List Char)) (part : List Char) : List (List Char) :=
  if part.isEmpty || part = ['.'] then parts
  else if part = parent then
    match parts with
    | last :: front => if last = parent then parent :: parts else front
    | [] => if absolute then [] else [parent]
  else part :: parts

/-- A path without empty parts, single dots and avoidable steps upwards. A trailing separator is
kept. -/
def normalize (path : String) : String :=
  let chars := path.toList
  let absolute := (chars.head?.map isSeparator).getD false
  let trailing := (chars.getLast?.map isSeparator).getD false
  let parts := ((pieces chars).foldl (enter absolute) []).reverse
  let body := [separator].intercalate parts
  if body.isEmpty then
    if absolute then "/" else if trailing then "./" else "."
  else
    .ofList ((if absolute then [separator] else []) ++ body ++ (if trailing then [separator] else []))

/-- Two paths put together and simplified; empty ones do not count. -/
def join (first second : String) : String :=
  match first.isEmpty, second.isEmpty with
  | true, true => "."
  | true, false => normalize second
  | false, true => normalize first
  | false, false => normalize (first ++ "/" ++ second)

/-- Where a saved game lives: a bare name in the directory for saved games, any other path where it
says. -/
def ofSnapshot (name folder : String) : String :=
  if directory name = "." then join folder name else name

end AdventureMachine.Path
