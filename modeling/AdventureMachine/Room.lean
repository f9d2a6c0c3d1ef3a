import AdventureMachine.Error
import AdventureMachine.Text.Blank
import AdventureMachine.Text.Search

/-! Rooms as a game describes them. A response ends at the prompt; a line `== Title ==` starts a
room, and everything before it is the prelude. Below the title stand the description, then
sections: a header that ends in a colon and its `- ` entries, up to a blank line. -/
namespace AdventureMachine

/-- A described room. -/
structure Room where
  title : String
  description : String
  items : List String
  exits : List String
deriving DecidableEq

/-- What a response says: the text before the room, and the room if there is one. -/
structure Response where
  prelude : String
  room : Option Room
deriving DecidableEq

namespace Room

/-- The text with which a game asks for a command. -/
def prompt : String := "What do you do?"

/-- The header above the items of a room. -/
def itemsHeader : String := "Things of interest here:"

/-- Identifies a room; titles repeat across distinct rooms. -/
def key (room : Room) : String := room.title ++ "\n" ++ room.description

/-- The title in a line of the form `== Title ==`. -/
def title? (line : List Char) : Option (List Char) :=
  if line.length < 6 || !"== ".toList.isPrefixOf line || !" ==".toList.isSuffixOf line then none
  else some ((line.drop 3).take (line.length - 6))

/-- Finds the first title line: the text before it, the title, and the text behind it without the
one character that ends the line. -/
def findTitle? (text : List Char) : Option (List Char × List Char × List Char) :=
  go text.length [] text
where
  /-- Goes on behind the characters passed so far, latest first. -/
  go (budget : Nat) (passed text : List Char) : Option (List Char × List Char × List Char) :=
    let line := text.takeWhile fun c => !Text.isLineEnd c
    let behind := text.drop line.length
    match title? line with
    | some title => some (passed.reverse, title, behind.drop 1)
    | none =>
      match budget, behind with
      | budget + 1, ending :: rest => go budget (ending :: (line.reverse ++ passed)) rest
      | _, _ => none

/-- What a section lists. -/
inductive Section where
  | items
  | exits
deriving DecidableEq

/-- The section that a header line opens. -/
def section? (line : List Char) : Option Section :=
  if line = itemsHeader.toList then some .items
  else if "There".toList.isPrefixOf line && ":".toList.isSuffixOf line then some .exits
  else none

/-- Items and exits in the order they are listed. -/
structure Contents where
  items : List String
  exits : List String

/-- Puts an entry in front of its list. -/
def Contents.add (contents : Contents) (part : Section) (entry : List Char) : Contents :=
  match part with
  | .items => { contents with items := .ofList entry :: contents.items }
  | .exits => { contents with exits := .ofList entry :: contents.exits }

/-- Reads the lines below the description. `current` is the section whose entries are being
listed. -/
def sections (current : Option Section) : List (List Char) → Except Error Contents
  | [] => .ok ⟨[], []⟩
  | line :: rest =>
    if line.isEmpty then sections none rest
    else
      match current with
      | some part =>
        match line with
        | '-' :: ' ' :: entry => do
          let contents ← sections current rest
          return contents.add part entry
        | _ => .error (.malformedEntry (.ofList line))
      | none =>
        match section? line with
        | some part => sections (some part) rest
        | none => .error (.unknownSection (.ofList line))

/-- Whether a line can open a section, which ends the description. -/
def endsDescription (line : List Char) : Bool := ":".toList.isSuffixOf line

/-- The part of a response in front of the prompt. -/
def body (text : List Char) : List Char :=
  match Text.splitAt? prompt.toList text with
  | some (front, _) => front
  | none => text

/-- Reads a response; text behind the first prompt does not count. -/
def parse (text : String) : Except Error Response :=
  let body := body text.toList
  match findTitle? body with
  | none => .ok ⟨.ofList body, none⟩
  | some (front, title, behind) => do
    let lines := Text.lines behind
    let description := lines.takeWhile fun line => !endsDescription line
    let contents ← sections none (lines.drop description.length)
    return ⟨.ofList front, some
      { title := .ofList title
        description := .ofList (Text.stripNewlines (Text.unlines description))
        items := contents.items
        exits := contents.exits }⟩

end Room

end AdventureMachine
