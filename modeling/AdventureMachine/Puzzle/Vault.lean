import AdventureMachine.Adventure
import AdventureMachine.Number.Precision
import AdventureMachine.Number.Reading
import Std.Data.HashMap
import Std.Data.HashSet

/-! The vault: a square of rooms that hold a number or an operator each. A walk from the corner at
the entrance to the corner with the door folds them into a weight, and the door opens when the
weight is right. -/
namespace AdventureMachine.Vault

/-- What a room of the vault does to the number that follows. -/
inductive Operator where
  | plus
  | minus
  | times
deriving DecidableEq, Hashable

namespace Operator

/-- The sign of an operator. -/
def symbol : Operator → Char
  | plus => '+'
  | minus => '-'
  | times => '*'

/-- The operator with a given sign. -/
def ofSymbol? (c : Char) : Option Operator :=
  if c = '+' then some plus
  else if c = '-' then some minus
  else if c = '*' then some times
  else none

/-- Applies an operator. -/
def apply (operator : Operator) (left right : Int) : Int :=
  match operator with
  | plus => left + right
  | minus => left - right
  | times => left * right

end Operator

/-- The content of a room of the vault. -/
inductive Cell where
  | number (value : Int)
  /-- A number that is out of range. -/
  | infinite
  | operator (sign : Operator)
deriving DecidableEq

namespace Cell

/-- The mark on both sides of a number or an operator. -/
def quote : Char := '\x27'

/-- The cell of a number that is written with digits. -/
def ofNat (value : Nat) : Cell :=
  match Precision.Outcome.ofExact value with
  | .finite value => .number value
  | _ => .infinite

/-- The number that starts a text and is closed by a quote. -/
def number? (text : List Char) : Option Cell :=
  let digits := text.takeWhile Numeral.isDigit
  if digits.isEmpty || (text.drop digits.length).head? != some quote then none
  else (Numeral.natural? 10 digits).map ofNat

/-- The cell that starts behind an opening quote. -/
def quoted? (text : List Char) : Option Cell :=
  match text with
  | sign :: closing :: _ =>
    match Operator.ofSymbol? sign with
    | some found => if closing = quote then some (.operator found) else none
    | none => number? text
  | _ => none

/-- The first quoted number or operator in a text. -/
def find? : List Char → Option Cell
  | [] => none
  | c :: rest =>
    if c = quote then
      match quoted? rest with
      | some cell => some cell
      | none => find? rest
    else find? rest

/-- Reads the cell out of the description of its room. -/
def parse (description : String) : Except Error Cell :=
  match find? description.toList with
  | some cell => .ok cell
  | none => .error (.noVaultCell description)

/-- A cell in a log record. -/
def toLog : Cell → Log.Value
  | number value => .record [("kind", .text "number"), ("value", .number (.whole value))]
  | infinite => .record [("kind", .text "number"), ("value", .text "Infinity")]
  | operator sign =>
    .record [("kind", .text "operator"), ("operator", .text (.singleton sign.symbol))]

end Cell

/-- The four ways to walk. -/
inductive Direction where
  | east
  | west
  | north
  | south
deriving DecidableEq

namespace Direction

/-- The directions in the order they are tried. -/
def all : List Direction := [east, west, north, south]

/-- The name of a direction, which is also the command that takes it. -/
def name : Direction → String
  | east => "east"
  | west => "west"
  | north => "north"
  | south => "south"

/-- The direction with a given name. -/
def ofName? (name : String) : Option Direction := all.find? (·.name == name)

end Direction

/-- A place in the vault; the entrance is at `(0, 0)`. -/
structure Position where
  x : Int
  y : Int
deriving DecidableEq, Hashable, Inhabited

namespace Position

/-- The corner at the entrance. -/
def entrance : Position := ⟨0, 0⟩

/-- The neighbour in a direction. -/
def move (position : Position) : Direction → Position
  | .east => { position with x := position.x + 1 }
  | .west => { position with x := position.x - 1 }
  | .north => { position with y := position.y + 1 }
  | .south => { position with y := position.y - 1 }

/-- Whether a place lies in the square. -/
def inside (position : Position) (side : Int) : Bool :=
  0 ≤ position.x && 0 ≤ position.y && position.x < side && position.y < side

/-- The name of a place, its coordinates with a comma between them. -/
def key (position : Position) : String :=
  (Number.whole position.x).decimal ++ "," ++ (Number.whole position.y).decimal

end Position

/-- The known cells in the order they were mapped, one for each place. -/
structure Grid where
  cells : List (Position × Cell)
  distinct : (cells.map Prod.fst).Nodup

namespace Grid

/-- A grid without cells. -/
def empty : Grid := ⟨[], List.nodup_nil⟩

/-- The cell at a place. -/
def get? (grid : Grid) (position : Position) : Option Cell := grid.cells.lookup position

/-- Replaces the cell of a known place. -/
def replace (position : Position) (cell : Cell) (entry : Position × Cell) : Position × Cell :=
  if entry.1 = position then (position, cell) else entry

theorem map_fst_replace (position : Position) (cell : Cell) (cells : List (Position × Cell)) :
    (cells.map (replace position cell)).map Prod.fst = cells.map Prod.fst := by
  rw [List.map_map]
  refine List.map_congr_left fun entry _ => ?_
  by_cases same : entry.1 = position <;> simp [replace, same]

theorem nodup_concat {cells : List (Position × Cell)} {position : Position} (cell : Cell)
    (distinct : (cells.map Prod.fst).Nodup) (unknown : ¬ (cells.lookup position).isSome) :
    ((cells ++ [(position, cell)]).map Prod.fst).Nodup := by
  have missing : position ∉ cells.map Prod.fst := by
    intro member
    obtain ⟨entry, listed, same⟩ := List.mem_map.mp member
    rw [List.lookup_isSome_iff] at unknown
    exact unknown ⟨entry, listed, by simp [same]⟩
  simp only [List.map_append, List.map_cons, List.map_nil]
  refine List.nodup_append.mpr ⟨distinct, by simp, ?_⟩
  rintro known member _ last rfl
  exact missing (by simpa [List.mem_singleton.mp last] using member)

/-- Puts a cell at a place; a known place keeps its rank. -/
def insert (grid : Grid) (position : Position) (cell : Cell) : Grid :=
  if known : (grid.get? position).isSome then
    ⟨grid.cells.map (replace position cell), by
      rw [map_fst_replace]
      exact grid.distinct⟩
  else ⟨grid.cells ++ [(position, cell)], nodup_concat cell grid.distinct known⟩

end Grid

/-- The door that is looked for. -/
structure Task where
  side : Int := 4
  startWeight : Int := 22
  targetWeight : Int := 30

/-- A walk in progress. -/
structure Walk where
  position : Position
  weight : Int
  /-- The operator that waits for a number. -/
  pending : Option Operator
  /-- The moves so far, latest first. -/
  moves : List Direction

/-- What decides how a walk can go on. -/
structure Standing where
  position : Position
  weight : Int
  pending : Option Operator
deriving DecidableEq, Hashable

namespace Walk

/-- The walk that waits at the entrance. -/
def start (task : Task) : Walk := ⟨.entrance, task.startWeight, none, []⟩

/-- Where a walk stands. -/
def standing (walk : Walk) : Standing := ⟨walk.position, walk.weight, walk.pending⟩

/-- Weight and waiting operator after entering a cell; two operators in a row are refused. What an
operator makes of a number out of range is out of range too, or no number, and then it stays so:
either way the door does not open. -/
def fold (weight : Int) (pending : Option Operator) (cell : Cell) : Option (Int × Option Operator) :=
  match cell, pending with
  | .operator _, some _ => none
  | .operator operator, none => some (weight, some operator)
  | .number value, some operator => some (operator.apply weight value, none)
  | .infinite, some _ => none
  | .number _, none | .infinite, none => some (weight, none)

/-- Takes one step. The entrance can not be entered again, and the weight stays a literal. -/
def step? (cell? : Position → Option Cell) (side : Int) (walk : Walk) (direction : Direction) :
    Option Walk := do
  let position := walk.position.move direction
  guard (position.inside side && position != .entrance)
  let cell ← cell? position
  let (weight, pending) ← fold walk.weight walk.pending cell
  guard (0 ≤ weight && weight ≤ maxLiteral)
  return ⟨position, weight, pending, direction :: walk.moves⟩

/-- Whether a walk stands at the door. -/
def atDoor (walk : Walk) (side : Int) : Bool := walk.position == ⟨side - 1, side - 1⟩

/-- Whether the door opens for a walk. -/
def opens (walk : Walk) (task : Task) : Bool :=
  walk.pending.isNone && walk.weight == task.targetWeight

end Walk

/-- The cells by their places. -/
abbrev Index := Std.HashMap Position Cell

/-- Where a walk can stand: at a place with a cell, with a literal as its weight. -/
def standings (index : Index) : List Standing :=
  index.keys.flatMap fun position =>
    (List.range (maxLiteral + 1)).flatMap fun (weight : Nat) =>
      [none, some .plus, some .minus, some .times].map fun pending => ⟨position, weight, pending⟩

/-- Walks of one length that are to be continued, latest first, and all standings reached. -/
structure Frontier where
  walks : List Walk
  seen : Std.HashSet Standing

theorem of_guard {condition : Prop} [Decidable condition]
    (passed : guard condition = some ()) : condition := by
  by_cases holds : condition
  · exact holds
  · have refused : (guard condition : Option Unit) = none := if_neg holds
    rw [refused] at passed
    cases passed

theorem mem_standings {index : Index} {position : Position} {weight : Int}
    (known : position ∈ index) (low : 0 ≤ weight) (high : weight ≤ maxLiteral)
    (pending : Option Operator) : ⟨position, weight, pending⟩ ∈ standings index := by
  have literal : weight.toNat ∈ List.range (maxLiteral + 1) := List.mem_range.mpr (by omega)
  have waiting : pending ∈ [none, some .plus, some .minus, some .times] := by
    rcases pending with _ | _ | _ | _ <;> decide
  have listed := List.mem_map_of_mem (f := Standing.mk position weight) waiting
  rw [← Int.toNat_of_nonneg low] at listed ⊢
  exact List.mem_flatMap.mpr ⟨position, Std.HashMap.mem_keys.mpr known,
    List.mem_flatMap.mpr ⟨weight.toNat, literal, listed⟩⟩

theorem Walk.mem_standings {index : Index} {side : Int} {walk next : Walk} {direction : Direction}
    (stepped : walk.step? (index[·]?) side direction = some next) :
    next.standing ∈ standings index := by
  obtain ⟨_, _, entered⟩ := Option.bind_eq_some_iff.mp stepped
  obtain ⟨cell, found, folded⟩ := Option.bind_eq_some_iff.mp entered
  obtain ⟨⟨weight, pending⟩, _, kept⟩ := Option.bind_eq_some_iff.mp folded
  obtain ⟨_, literal, same⟩ := Option.bind_eq_some_iff.mp kept
  have bounds := of_guard literal
  simp only [Bool.and_eq_true, decide_eq_true_eq] at bounds
  cases same
  refine Vault.mem_standings ?_ bounds.1 bounds.2 pending
  exact Std.HashMap.mem_iff_isSome_getElem?.mpr (Option.isSome_of_eq_some found)

namespace Frontier

/-- Tries one step: `error` holds a walk that opens the door. A walk that ends at the door without
opening it, or reaches a known standing, is dropped. -/
def extend (task : Task) (cell? : Position → Option Cell) (walk : Walk) (frontier : Frontier)
    (direction : Direction) : Except Walk Frontier :=
  match walk.step? cell? task.side direction with
  | none => .ok frontier
  | some next =>
    if next.atDoor task.side then if next.opens task then .error next else .ok frontier
    else if frontier.seen.contains next.standing then .ok frontier
    else .ok ⟨next :: frontier.walks, frontier.seen.insert next.standing⟩

/-- Continues every walk by one step. -/
def advance (task : Task) (cell? : Position → Option Cell) (frontier : Frontier) :
    Except Walk Frontier :=
  frontier.walks.reverse.foldlM (fun next walk =>
    Direction.all.foldlM (fun next direction => next.extend task cell? walk direction) next)
    ⟨[], frontier.seen⟩

/-- How many standings have not been seen. -/
def unseen (index : Index) (frontier : Frontier) : Nat :=
  ((standings index).filter fun standing => !frontier.seen.contains standing).length

/-- One frontier has grown out of another: what was seen still is, and a new walk has reached a
standing that was not. -/
structure Grown (index : Index) (before after : Frontier) : Prop where
  kept : ∀ standing ∈ before.seen, standing ∈ after.seen
  fresh : ∀ walk ∈ after.walks, walk ∈ before.walks ∨
    walk.standing ∈ standings index ∧ walk.standing ∉ before.seen ∧ walk.standing ∈ after.seen

namespace Grown

variable {index : Index} {before middle after : Frontier}

theorem refl (frontier : Frontier) : Grown index frontier frontier :=
  ⟨fun _ seen => seen, fun _ listed => .inl listed⟩

theorem trans (first : Grown index before middle) (second : Grown index middle after) :
    Grown index before after := by
  refine ⟨fun standing seen => second.kept standing (first.kept standing seen), ?_⟩
  intro walk listed
  rcases second.fresh walk listed with earlier | ⟨possible, unseen, seen⟩
  · refine (first.fresh walk earlier).imp_right fun ⟨possible, unseen, seen⟩ => ?_
    exact ⟨possible, unseen, second.kept _ seen⟩
  · exact .inr ⟨possible, fun seen => unseen (first.kept _ seen), seen⟩

theorem extend {task : Task} {walk : Walk} {direction : Direction}
    (extended : before.extend task (index[·]?) walk direction = .ok after) :
    Grown index before after := by
  unfold Frontier.extend at extended
  split at extended
  · cases extended
    exact refl _
  · rename_i next stepped
    split at extended
    · split at extended
      · cases extended
      · cases extended
        exact refl _
    · split at extended
      · cases extended
        exact refl _
      · rename_i unseen
        cases extended
        refine ⟨fun standing seen => Std.HashSet.mem_insert.mpr (.inr seen), ?_⟩
        intro other listed
        rcases List.mem_cons.mp listed with rfl | listed
        · exact .inr ⟨Walk.mem_standings stepped, by simpa using unseen, by simp⟩
        · exact .inl listed

theorem foldlM {α : Type} {step : Frontier → α → Except Walk Frontier}
    (grows : ∀ before item after, step before item = .ok after → Grown index before after)
    {items : List α} (folded : items.foldlM step before = .ok after) :
    Grown index before after := by
  induction items generalizing before with
  | nil =>
    cases folded
    exact refl _
  | cons item rest ih =>
    rw [List.foldlM_cons] at folded
    cases stepped : step before item with
    | error opening =>
      rw [stepped] at folded
      cases folded
    | ok middle =>
      rw [stepped] at folded
      exact (grows before item middle stepped).trans (ih folded)

theorem advance {task : Task} (advanced : before.advance task (index[·]?) = .ok after) :
    Grown index ⟨[], before.seen⟩ after := by
  refine foldlM (fun before walk after folded => ?_) advanced
  exact foldlM (fun _ _ _ => extend) folded

end Grown

/-- A round that leaves walks has seen a new standing. -/
theorem unseen_advance {task : Task} {index : Index} {before after : Frontier}
    (advanced : before.advance task (index[·]?) = .ok after)
    (occupied : ¬ after.walks.isEmpty = true) : after.unseen index < before.unseen index := by
  have grown := Grown.advance advanced
  obtain ⟨walk, listed⟩ := List.exists_mem_of_ne_nil _ (mt List.isEmpty_iff.mpr occupied)
  obtain ⟨possible, unseen, seen⟩ := (grown.fresh walk listed).resolve_left List.not_mem_nil
  have narrowed : (standings index).filter (fun standing => !after.seen.contains standing) =
      ((standings index).filter fun standing => !before.seen.contains standing).filter
        fun standing => !after.seen.contains standing := by
    rw [List.filter_filter]
    refine List.filter_congr fun standing _ => ?_
    cases known : before.seen.contains standing with
    | false => simp
    | true => simpa using grown.kept standing (Std.HashSet.mem_iff_contains.mpr known)
  rw [Frontier.unseen, narrowed]
  refine List.length_filter_lt_length_iff_exists.mpr ⟨walk.standing, ?_, by simpa using seen⟩
  exact List.mem_filter.mpr ⟨possible, by simpa using unseen⟩

/-- Continues until a walk opens the door or none is left. -/
def search (task : Task) (index : Index) (frontier : Frontier) : Option (List Direction) :=
  match _advanced : frontier.advance task (index[·]?) with
  | .error walk => some walk.moves.reverse
  | .ok next => if _occupied : next.walks.isEmpty then none else search task index next
termination_by frontier.unseen index
decreasing_by exact unseen_advance _advanced _occupied

end Frontier

/-- The shortest walk that opens the door; among several, the first in the order of directions. -/
def path? (task : Task) (grid : Grid) : Option (List Direction) :=
  let start := Walk.start task
  Frontier.search task (Std.HashMap.ofList grid.cells)
    ⟨[start], Std.HashSet.emptyWithCapacity.insert start.standing⟩

end AdventureMachine.Vault
