import AdventureMachine.Puzzle.VaultMap
import AdventureMachine.Proofs.Excursion
import Mathlib.Data.Option.Basic
import Mathlib.Logic.Relation

/-! Mapping the vault. The rooms of a compiled world lie on a square, so that each move inside it
leads to the neighbour or out of the vault. Then the walk that maps the vault is in the room of the
cell it thinks it is in. It maps exactly the cells that can be reached by moves that are followed,
and fails exactly when one of them shows no number or operator. -/
namespace AdventureMachine

open World (Place Exit Answer)

theorem Text.occurs_iff {part text : List Char} : occurs part text = true ↔ part <:+: text := by
  rw [occurs, Option.isSome_iff_exists]
  constructor
  · rintro ⟨⟨before, behind⟩, found⟩
    obtain ⟨front, _, rfl, begins, _⟩ := splitAt?_go_eq_some [] found
    exact begins.isInfix.trans (List.suffix_append _ _).isInfix
  · intro inside
    cases found : splitAt? part text with
    | none => exact absurd inside (splitAt?_go_eq_none [] found)
    | some cut => exact ⟨cut, rfl⟩

namespace Numeral

theorem isDigit_eq (c : Char) : isDigit c = c.isDigit := by
  have limits : c.isDigit = true ↔ ('0' ≤ c ∧ c ≤ '9') := by
    simp [Char.isDigit, Char.le_def, UInt32.le_iff_toNat_le]
  rw [Bool.eq_iff_iff, limits, isDigit, digit?]
  by_cases plain : '0' ≤ c ∧ c ≤ '9'
  · have high : c.toNat ≤ '9'.toNat := plain.2
    have nine : '9'.toNat = 57 := rfl
    have zero : '0'.toNat = 48 := rfl
    have low : c.toNat - '0'.toNat < 10 := by omega
    simp only [plain, decide_true, Bool.and_self, ↓reduceIte, low, Option.isSome_some, and_self]
  · have other : ¬ (('0' ≤ c && c ≤ '9') = true) := by simpa using plain
    have wide : ¬ (if 'a' ≤ c && c ≤ 'f' then c.toNat - 'a'.toNat + 10
        else if 'A' ≤ c && c ≤ 'F' then c.toNat - 'A'.toNat + 10 else 10) < 10 := by
      split
      · omega
      · split <;> omega
    simp only [if_neg other, if_neg wide, plain, iff_false]
    exact Bool.false_ne_true

/-- A sequence of digits has a value. -/
theorem exists_natural? {digits : List Char} (some : digits ≠ [])
    (plain : ∀ c ∈ digits, isDigit c = true) : ∃ value, natural? 10 digits = .some value := by
  obtain ⟨first, rest, rfl⟩ := List.exists_cons_of_ne_nil some
  have grows (digits : List Char) (plain : ∀ c ∈ digits, isDigit c = true) (total : Nat) :
      ∃ value, digits.foldlM (fun total c => (digit? 10 c).map (total * 10 + ·)) total =
        Option.some value := by
    induction digits generalizing total with
    | nil => exact ⟨total, rfl⟩
    | cons c rest ih =>
      obtain ⟨here, others⟩ := List.forall_mem_cons.mp plain
      obtain ⟨digit, found⟩ := Option.isSome_iff_exists.mp here
      rw [List.foldlM_cons, found]
      exact ih others _
  exact grows _ plain 0

end Numeral

/-- The rooms of a world and its moves can be told apart in what it says. -/
structure World.Walkable (world : World) : Prop where
  narrow : world.Narrow
  places : ∀ place ∈ world.places, place.Legible
  named : ∀ place ∈ world.places, ∀ exit ∈ place.exits, exit.name ≠ ""
  messages : ∀ place ∈ world.places, ∀ exit ∈ place.exits, Preface exit.message

theorem World.Walkable.playable {world : World} {image : Bytes} (walkable : world.Walkable)
    (compiled : world.compile = .ok image) : world.Playable :=
  playable_of_check (compile_ok compiled).1 walkable.narrow
    (exitsNamed_of_legible walkable.places walkable.named)

namespace Vault

namespace Operator

theorem ofSymbol?_eq_some_iff {c : Char} {operator : Operator} :
    ofSymbol? c = some operator ↔ c = operator.symbol := by
  constructor
  · intro found
    rw [ofSymbol?] at found
    split at found
    · cases found; assumption
    · split at found
      · cases found; assumption
      · split at found
        · cases found; assumption
        · cases found
  · rintro rfl
    cases operator <;> rfl

theorem isDigit_symbol (operator : Operator) : operator.symbol.isDigit = false := by
  cases operator <;> rfl

end Operator

/-- What can stand between quotes: the sign of an operator, or digits. -/
def Token (token : List Char) : Prop :=
  (∃ operator : Operator, token = [operator.symbol]) ∨
    token ≠ [] ∧ ∀ c ∈ token, c.isDigit = true

/-- The text has a number or an operator between quotes. -/
def Quotes (text : List Char) : Prop :=
  ∃ token, Token token ∧ Cell.quote :: (token ++ [Cell.quote]) <:+: text

namespace Cell

theorem number?_isSome_iff {text : List Char} :
    (number? text).isSome = true ↔
      ∃ digits, digits ≠ [] ∧ (∀ c ∈ digits, c.isDigit = true) ∧ digits ++ [quote] <+: text := by
  have digit : Numeral.isDigit = Char.isDigit := funext Numeral.isDigit_eq
  constructor
  · intro found
    obtain ⟨rest, split⟩ := List.takeWhile_prefix (l := text) Char.isDigit
    have plain : ∀ c ∈ text.takeWhile Char.isDigit, c.isDigit = true :=
      List.all_eq_true.mp List.all_takeWhile
    rw [number?, digit] at found
    generalize text.takeWhile Char.isDigit = digits at found split plain
    subst split
    rw [List.drop_left] at found
    split at found
    · cases found
    · rename_i shape
      simp only [Bool.or_eq_true, List.isEmpty_iff, bne_iff_ne, ne_eq, not_or, not_not] at shape
      obtain ⟨more, rfl⟩ := List.head?_eq_some_iff.mp shape.2
      exact ⟨digits, shape.1, plain, more, by simp⟩
  · rintro ⟨digits, some, plain, rest, rfl⟩
    have written : (digits ++ [quote] ++ rest).takeWhile Char.isDigit = digits := by
      rw [List.append_assoc, List.takeWhile_append_of_pos plain, List.singleton_append,
        List.takeWhile_cons_of_neg (by decide), List.append_nil]
    obtain ⟨value, read⟩ := Numeral.exists_natural? some (digit ▸ plain)
    rw [number?, digit, written, List.append_assoc, List.drop_left, read]
    simp [some]

theorem quoted?_isSome_iff {text : List Char} :
    (quoted? text).isSome = true ↔ ∃ token, Token token ∧ token ++ [quote] <+: text := by
  constructor
  · intro found
    unfold quoted? at found
    split at found
    · rename_i sign closing rest
      split at found
      · rename_i operator named
        split at found
        · rename_i closed
          refine ⟨[sign], .inl ⟨operator, ?_⟩, rest, by simp [closed]⟩
          rw [Operator.ofSymbol?_eq_some_iff.mp named]
        · cases found
      · obtain ⟨digits, some, plain, begins⟩ := number?_isSome_iff.mp found
        exact ⟨digits, .inr ⟨some, plain⟩, begins⟩
    · cases found
  · rintro ⟨token, ⟨operator, rfl⟩ | ⟨some, plain⟩, begins⟩
    · obtain ⟨rest, rfl⟩ := begins
      have named := Operator.ofSymbol?_eq_some_iff.mpr (Eq.refl operator.symbol)
      simp [quoted?, named]
    · have read := number?_isSome_iff.mpr ⟨token, some, plain, begins⟩
      obtain ⟨first, more, rfl⟩ := List.exists_cons_of_ne_nil some
      have unsigned : Operator.ofSymbol? first = none := by
        cases named : Operator.ofSymbol? first with
        | none => rfl
        | some operator =>
          have digit := plain first List.mem_cons_self
          rw [Operator.ofSymbol?_eq_some_iff.mp named, operator.isDigit_symbol] at digit
          cases digit
      obtain ⟨rest, rfl⟩ := begins
      cases more with
      | nil => simpa [quoted?, unsigned] using read
      | cons second others => simpa [quoted?, unsigned] using read

theorem find?_isSome_iff {text : List Char} : (find? text).isSome = true ↔ Quotes text := by
  induction text with
  | nil =>
    constructor
    · nofun
    · rintro ⟨token, _, inside⟩
      cases List.infix_nil.mp inside
  | cons c rest ih =>
    have later : Quotes (c :: rest) ↔
        (c = quote ∧ ∃ token, Token token ∧ token ++ [quote] <+: rest) ∨ Quotes rest := by
      simp only [Quotes, List.infix_cons_iff, List.cons_prefix_cons]
      grind
    rw [later, ← ih, ← quoted?_isSome_iff, find?]
    by_cases opens : c = quote
    · simp only [opens, ↓reduceIte, true_and]
      cases quoted? rest with
      | none => simp
      | some cell => simp
    · simp [opens]

theorem parse_of_find? {description : String} {cell : Cell}
    (found : find? description.toList = some cell) : parse description = .ok cell := by
  rw [parse, found]

theorem error_of_parse {description : String} {error : Error}
    (failed : parse description = .error error) : error = .noVaultCell description := by
  rw [parse] at failed
  split at failed
  · cases failed
  · exact (Except.error.inj failed).symm

/-- A description shows a cell exactly when it quotes a number or an operator. -/
theorem exists_parse_iff {description : String} :
    (∃ cell, parse description = .ok cell) ↔ Quotes description.toList := by
  rw [← find?_isSome_iff, parse]
  cases find? description.toList with
  | none => simp
  | some cell => simp

end Cell

namespace Grid

variable {grid : Grid} {position : Position}

theorem get?_insert (unknown : grid.get? position = none) (cell : Cell) (other : Position) :
    (grid.insert position cell).get? other =
      if other = position then some cell else grid.get? other := by
  have added : (grid.insert position cell).cells = grid.cells ++ [(position, cell)] := by
    rw [insert, dif_neg (by simp [unknown])]
  rw [get?, added, List.lookup_append]
  by_cases same : other = position
  · have missing : grid.cells.lookup other = none := by
      rw [same]
      exact unknown
    rw [missing, Option.none_or, List.lookup_cons, if_pos same, beq_iff_eq.mpr same]
  · rw [if_neg same, List.lookup_cons, beq_eq_false_iff_ne.mpr same]
    exact Option.or_none

/-- Whether there is a cell at a place. -/
def Maps (grid : Grid) (position : Position) : Prop := (grid.get? position).isSome = true

theorem maps_iff : grid.Maps position ↔ ∃ cell, grid.get? position = some cell :=
  Option.isSome_iff_exists

end Grid

/-- The places of a square. -/
def square (side : Int) : List Position :=
  (List.range side.toNat).flatMap fun (x : Nat) =>
    (List.range side.toNat).map fun (y : Nat) => ⟨x, y⟩

theorem mem_square {side : Int} {position : Position} (inside : position.inside side = true) :
    position ∈ square side := by
  simp only [Position.inside, Bool.and_eq_true, decide_eq_true_eq] at inside
  obtain ⟨⟨⟨left, low⟩, right⟩, high⟩ := inside
  have column : position.x.toNat < side.toNat := by omega
  have row : position.y.toNat < side.toNat := by omega
  have x : (position.x.toNat : Int) = position.x := Int.toNat_of_nonneg left
  have y : (position.y.toNat : Int) = position.y := Int.toNat_of_nonneg low
  refine List.mem_flatMap.mpr ⟨_, List.mem_range.mpr column,
    List.mem_map.mpr ⟨_, List.mem_range.mpr row, ?_⟩⟩
  rw [x, y]

theorem length_square (side : Int) : (square side).length = side.toNat * side.toNat := by
  simp [square]

/-- How many places of the square have no cell yet. -/
def unmapped (side : Int) (grid : Grid) : Nat :=
  (square side).countP fun position => (grid.get? position).isNone

section Unmapped

variable {side : Int} {before after : Grid}

theorem unmapped_mono (kept : ∀ position, before.Maps position → after.Maps position) :
    unmapped side after ≤ unmapped side before := by
  apply List.countP_mono_left
  intro position _ missing
  by_contra known
  rw [Bool.not_eq_true, Option.isNone_eq_false_iff] at known
  have mapped : (after.get? position).isSome = true := kept position known
  rw [Option.isNone_iff_eq_none.mp missing] at mapped
  cases mapped

theorem unmapped_insert {position : Position} (inside : position.inside side = true)
    (unknown : before.get? position = none) (cell : Cell) :
    unmapped side (before.insert position cell) < unmapped side before := by
  apply countP_lt_countP (mem_square inside)
  · simp [unknown]
  · simp [Grid.get?_insert unknown]
  · intro other _ missing
    rw [Grid.get?_insert unknown] at missing
    split at missing
    · cases missing
    · exact missing

theorem unmapped_lt (side : Int) (grid : Grid) :
    unmapped side grid < side.toNat * side.toNat + 1 := by
  rw [← length_square]
  exact Nat.lt_succ_of_le List.countP_le_length

end Unmapped

theorem Direction.ofName?_eq_some_iff {name : String} {direction : Direction} :
    ofName? name = some direction ↔ name = direction.name := by
  constructor
  · intro found
    have same := List.find?_some found
    exact (beq_iff_eq.mp same).symm
  · rintro rfl
    cases direction <;> decide

theorem Direction.name_inj {first second : Direction} (same : first.name = second.name) :
    first = second := by
  have found := ofName?_eq_some_iff.mpr same
  rw [ofName?_eq_some_iff.mpr (Eq.refl first.name)] at found
  exact Option.some.inj found

namespace Survey

variable {survey : Survey}

theorem target?_eq_some_iff {grid : Grid} {position next : Position} {exit : String} :
    survey.target? grid position exit = some next ↔
      ∃ direction : Direction, exit = direction.name ∧ position.move direction = next ∧
        next.inside survey.side = true ∧ grid.get? next = none := by
  simp only [target?, Option.bind_eq_bind, Option.bind_eq_some_iff, Direction.ofName?_eq_some_iff,
    Option.guard_eq_some', Bool.and_eq_true, Option.isNone_iff_eq_none, Option.pure_def,
    Option.some.injEq]
  constructor
  · rintro ⟨direction, named, _, free, rfl⟩
    exact ⟨direction, named, rfl, free⟩
  · rintro ⟨direction, named, rfl, free⟩
    exact ⟨direction, named, ⟨⟩, free, rfl⟩

theorem follow?_eq_some_iff {event : Event} {room : Room} :
    follow? event = some room ↔ event.room = some room ∧
      ¬ "shatter".toList <:+: event.prelude.toList ∧ "Vault".toList <+: room.title.toList ∧
        room.title ≠ antechamber := by
  simp only [follow?, Option.bind_eq_bind, Option.bind_eq_some_iff, Option.guard_eq_some',
    Option.pure_def, Option.some.injEq, Bool.not_eq_true', ← Bool.not_eq_true, Text.occurs_iff,
    Bool.and_eq_true, List.isPrefixOf_iff_prefix, bne_iff_ne]
  constructor
  · rintro ⟨found, described, _, whole, _, ⟨vault, other⟩, rfl⟩
    exact ⟨described, whole, vault, other⟩
  · rintro ⟨described, whole, vault, other⟩
    exact ⟨room, described, ⟨⟩, whole, ⟨⟩, ⟨vault, other⟩, rfl⟩

/-- Trying one exit of a room. -/
def tryExit (survey : Survey) (descend : Adventure → Room → Position → Mapping Unit)
    (game : Adventure) (position : Position) (exit : String) : Mapping Unit := do
  match survey.target? (← get) position exit with
  | none => return ()
  | some next =>
    let limit := Machine.budgetOf survey.limit
    let (event, fork) ← StateT.lift (ExceptT.mk (game.attempt limit exit))
    match follow? event with
    | none => return ()
    | some room => descend fork room next

theorem ending_tryExit (descend : Adventure → Room → Position → Mapping Unit) (game : Adventure)
    (position : Position) (exit : String) (grid : Grid) :
    ending (survey.tryExit descend game position exit) grid =
      match survey.target? grid position exit with
      | none => .ok ((), grid)
      | some next =>
        (game.attempt (Machine.budgetOf survey.limit) exit).value.bind fun (event, fork) =>
          match follow? event with
          | none => .ok ((), grid)
          | some room => ending (descend fork room next) grid := by
  rw [tryExit, ending_bind, ending_get]
  simp only [Except.bind]
  cases survey.target? grid position exit with
  | none => rfl
  | some next =>
    simp only [ending_bind, ending_lift]
    cases (game.attempt (Machine.budgetOf survey.limit) exit).value with
    | error error => rfl
    | ok answer =>
      simp only [Except.map, Except.bind]
      cases follow? answer.1 with
      | none => rfl
      | some room => rfl

theorem ending_visit_succ (budget : Nat) (game : Adventure) (room : Room) (position : Position)
    (grid : Grid) :
    ending (survey.visit (budget + 1) game room position) grid =
      if grid.get? position = none then
        (Cell.parse room.description).bind fun cell =>
          if room.title = door then .ok ((), grid.insert position cell)
          else ending (room.exits.forM (survey.tryExit (survey.visit budget) game position))
            (grid.insert position cell)
      else .ok ((), grid) := by
  rw [visit, ending_bind, ending_get]
  simp only [Except.bind, Option.isNone_iff_eq_none]
  split
  · simp only [ending_bind, ending_lift]
    cases Cell.parse room.description with
    | error error => rfl
    | ok cell =>
      by_cases last : room.title = door
      · simp only [last]
        rfl
      · simp only [last, bne_iff_ne, ne_eq, not_false_eq_true, ↓reduceIte]
        rfl
  · rfl

theorem value_run (survey : Survey) (game : Adventure) (start : Room) :
    (survey.run game start).value =
      (ending (survey.visit (survey.side.toNat * survey.side.toNat + 1) game start .entrance)
        .empty).map Prod.snd := by
  simp only [run, Logged.value_bind, ending]
  cases (StateT.run (survey.visit _ game start .entrance) .empty).run.value with
  | error error => rfl
  | ok result => rfl

end Survey

section Square

variable (world : World) (side : Int) (placed : Position → Option Place)

/-- Rooms are placed on the square, and moving from one of them inside the square leads to the room
that is placed there, or out of the vault. -/
structure Layout : Prop where
  known : ∀ position here, placed position = some here →
    here ∈ world.places ∧ position.inside side = true
  adjoins : ∀ position here exit direction there, placed position = some here →
    exit ∈ here.exits → exit.name = Direction.name direction →
    (position.move direction).inside side = true → world.place? exit.destination = some there →
    placed (position.move direction) = some there ∨ ¬ "Vault".toList <+: there.title.toList

/-- A move that is followed: it goes from a room without the door in a direction inside the square,
breaks nothing, and leads to a room of the vault that is not the one in front of it. -/
structure Follows (here : Place) (position : Position) (exit : Exit) (direction : Direction)
    (there : Place) : Prop where
  indoors : here.title ≠ door
  listed : exit ∈ here.exits
  named : exit.name = direction.name
  inside : (position.move direction).inside side = true
  leads : world.place? exit.destination = some there
  whole : ¬ "shatter".toList <:+: exit.message.toList
  vault : "Vault".toList <+: there.title.toList
  other : there.title ≠ antechamber

/-- An exit of the room at a place is followed to the next place. -/
def Leaves (here : Place) (position : Position) (exit : Exit) (next : Position) : Prop :=
  ∃ direction there, Follows world side here position exit direction there ∧
    position.move direction = next

/-- There is a move from a place to the next that is followed. -/
def Onward (position next : Position) : Prop :=
  ∃ here exit, placed position = some here ∧ Leaves world side here position exit next

/-- There are moves from a place to another that are followed. -/
def Reaches : Position → Position → Prop := Relation.ReflTransGen (Onward world side placed)

/-- What the room at a place shows. -/
def Shows (position : Position) (cell : Except Error Cell) : Prop :=
  ∃ here, placed position = some here ∧ Cell.parse here.description = cell

/-- What part of a walk draws that starts at a place: new cells are those that can be reached, and
there are cells behind all of them. -/
structure Draws (position : Position) (before after : Grid) : Prop where
  kept : ∀ other cell, before.get? other = some cell → after.get? other = some cell
  drawn : ∀ other cell, after.get? other = some cell → before.get? other = some cell ∨
    Reaches world side placed position other ∧ Shows placed other (.ok cell)
  done : ∀ other, after.Maps other → before.Maps other ∨
    ∀ next, Onward world side placed other next → after.Maps next

/-- How part of a walk ends that starts at a place: it has drawn cells at its targets, or a room
that can be reached shows none. -/
def Ends (position : Position) (before : Grid) (targets : Position → Prop) :
    Except Error (Unit × Grid) → Prop
  | .ok (_, after) =>
    Draws world side placed position before after ∧ ∀ next, targets next → after.Maps next
  | .error error => ∃ other, Reaches world side placed position other ∧
    Shows placed other (.error error)

end Square

section Parts

variable {world : World} {side : Int} {placed : Position → Option Place} {position next : Position}
  {before middle after : Grid}

theorem Onward.leaves {here : Place} (stands : placed position = some here)
    (onward : Onward world side placed position next) :
    here.title ≠ door ∧ ∃ exit ∈ here.exits, Leaves world side here position exit next := by
  obtain ⟨there, exit, found, direction, behind, follows, moved⟩ := onward
  obtain rfl := Option.some.inj (stands.symm.trans found)
  exact ⟨follows.indoors, exit, follows.listed, direction, behind, follows, moved⟩

theorem Draws.maps (draws : Draws world side placed position before after) {other : Position}
    (mapped : before.Maps other) : after.Maps other := by
  obtain ⟨cell, found⟩ := Grid.maps_iff.mp mapped
  exact Grid.maps_iff.mpr ⟨cell, draws.kept other cell found⟩

theorem Draws.refl (grid : Grid) : Draws world side placed position grid grid :=
  ⟨fun _ _ found => found, fun _ _ found => .inl found, fun _ mapped => .inl mapped⟩

theorem Draws.trans (first : Draws world side placed position before middle)
    (second : Draws world side placed position middle after) :
    Draws world side placed position before after := by
  refine ⟨fun other cell found => second.kept other cell (first.kept other cell found), ?_, ?_⟩
  · intro other cell found
    rcases second.drawn other cell found with earlier | new
    · exact first.drawn other cell earlier
    · exact .inr new
  · intro other mapped
    rcases second.done other mapped with earlier | done
    · exact (first.done other earlier).imp_right fun done next onward =>
        second.maps (done next onward)
    · exact .inr done

/-- When nothing was drawn before, all that can be reached from a cell is drawn. -/
theorem Draws.maps_of_reaches (draws : Draws world side placed position .empty after)
    (mapped : after.Maps position) (reached : Reaches world side placed position next) :
    after.Maps next := by
  induction reached with
  | refl => exact mapped
  | tail _ onward earlier =>
    rcases draws.done _ earlier with nowhere | done
    · cases nowhere
    · exact done _ onward

theorem Draws.head (onward : Onward world side placed position next)
    (draws : Draws world side placed next before after) :
    Draws world side placed position before after := by
  refine ⟨draws.kept, ?_, draws.done⟩
  intro other cell found
  exact (draws.drawn other cell found).imp_right fun new => ⟨.head onward new.1, new.2⟩

/-- A cell that was just drawn counts among the new ones when there are cells behind it. -/
theorem Draws.insert {cell : Cell} (unknown : before.get? position = none)
    (shown : Shows placed position (.ok cell))
    (draws : Draws world side placed position (before.insert position cell) after)
    (done : ∀ next, Onward world side placed position next → after.Maps next) :
    Draws world side placed position before after := by
  have inserted (other : Position) := Grid.get?_insert unknown cell other
  refine ⟨?_, ?_, ?_⟩
  · intro other found known
    refine draws.kept other found ?_
    have different : other ≠ position := by
      rintro rfl
      rw [unknown] at known
      cases known
    rw [inserted, if_neg different, known]
  · intro other found mapped
    rcases draws.drawn other found mapped with earlier | new
    · rw [inserted] at earlier
      split at earlier
      · rename_i same
        cases earlier
        rw [same]
        exact .inr ⟨.refl, shown⟩
      · exact .inl earlier
    · exact .inr new
  · intro other mapped
    rcases draws.done other mapped with earlier | finished
    · by_cases same : other = position
      · rw [same]
        exact .inr done
      · rw [Grid.Maps, inserted, if_neg same] at earlier
        exact .inl earlier
    · exact .inr finished

theorem Ends.insert {cell : Cell} {targets : Position → Prop} {result : Except Error (Unit × Grid)}
    (unknown : before.get? position = none) (shown : Shows placed position (.ok cell))
    (leads : ∀ next, Onward world side placed position next → targets next)
    (ends : Ends world side placed position (before.insert position cell) targets result) :
    Ends world side placed position before (· = position) result := by
  cases result with
  | error error => exact ends
  | ok last =>
    refine ⟨ends.1.insert unknown shown fun next onward => ends.2 next (leads next onward), ?_⟩
    rintro _ rfl
    refine ends.1.maps ?_
    rw [Grid.Maps, Grid.get?_insert unknown, if_pos rfl]
    rfl

theorem Ends.head {targets : Position → Prop} {result : Except Error (Unit × Grid)}
    (onward : Onward world side placed position next)
    (ends : Ends world side placed next before targets result) :
    Ends world side placed position before targets result := by
  cases result with
  | error error =>
    obtain ⟨other, reached, shown⟩ := ends
    exact ⟨other, .head onward reached, shown⟩
  | ok last => exact ⟨ends.1.head onward, ends.2⟩

theorem Ends.weaken {targets fewer : Position → Prop} {result : Except Error (Unit × Grid)}
    (ends : Ends world side placed position before targets result)
    (among : ∀ next, fewer next → targets next) :
    Ends world side placed position before fewer result := by
  cases result with
  | error error => exact ends
  | ok last => exact ⟨ends.1, fun next target => ends.2 next (among next target)⟩

theorem Ends.bind {first second : Position → Prop} {result : Except Error (Unit × Grid)}
    {rest : Grid → Except Error (Unit × Grid)}
    (ends : Ends world side placed position before first result)
    (behind : ∀ middle, Draws world side placed position before middle →
      Ends world side placed position middle second (rest middle)) :
    Ends world side placed position before (fun next => first next ∨ second next)
      (result.bind fun (_, middle) => rest middle) := by
  cases result with
  | error error => exact ends
  | ok last =>
    obtain ⟨_, middle⟩ := last
    have onward := behind middle ends.1
    cases ended : rest middle with
    | error error =>
      rw [ended] at onward
      simp only [Except.bind, ended]
      exact onward
    | ok final =>
      rw [ended] at onward
      simp only [Except.bind, ended]
      refine ⟨ends.1.trans onward.1, ?_⟩
      rintro next (target | target)
      · exact onward.1.maps (ends.2 next target)
      · exact onward.2 next target

end Parts

section Walk

variable {world : World} {image : Bytes} {side : Int} {placed : Position → Option Place}
  {here : Place} {game : Adventure} {position : Position} (compiled : world.compile = .ok image)
  (fits : image.length ≤ Image.maxBytes) (walkable : world.Walkable)
  (layout : Layout world side placed)

include compiled fits walkable in
/-- Taking an exit in a direction where a game waits tells its message and describes its
destination. -/
theorem exists_attempt_direction (waits : world.Waits image here game) (member : here ∈ world.places)
    {exit : Exit} (listed : exit ∈ here.exits) {direction : Direction}
    (named : exit.name = direction.name) :
    ∃ there fork, world.place? exit.destination = some there ∧
      (game.attempt Machine.unlimited exit.name).value =
        .ok (Answer.event ⟨exit.message, there, true⟩, fork) ∧ world.Waits image there fork := by
  obtain ⟨words, decoded, installed⟩ := World.installed_of_compile compiled fits
  have playable := walkable.playable compiled
  have plain : exit.name.toList.head? ≠ some '\r' := by
    rw [named]
    cases direction <;> decide
  obtain ⟨there, found, known, said⟩ :=
    World.exists_respond_exit compiled playable member listed plain
  have legible : Answer.Legible ⟨exit.message, there, true⟩ :=
    ⟨walkable.messages here member exit listed, fun _ => walkable.places there known, nofun⟩
  obtain ⟨fork, tried, waiting⟩ := World.waits_attempt_exit installed decoded playable waits member
    listed ((walkable.places here member).exits exit listed) said legible
  exact ⟨there, fork, found, tried, waiting⟩

include compiled fits walkable layout

/-- After an exit was tried there is a cell behind it, if the move is one that is followed. -/
theorem ends_tryExit {descend : Adventure → Room → Position → Survey.Mapping Unit} {grid : Grid}
    (deeper : ∀ {there : Place} {fork : Adventure} {next : Position}, placed next = some there →
      world.Waits image there fork →
      Ends world side placed next grid (· = next) (ending (descend fork there.room next) grid))
    (stands : placed position = some here) (indoors : here.title ≠ door)
    (waits : world.Waits image here game) {exit : Exit} (listed : exit ∈ here.exits) :
    Ends world side placed position grid (Leaves world side here position exit)
      (ending (Survey.tryExit ⟨side, none⟩ descend game position exit.name) grid) := by
  rw [Survey.ending_tryExit]
  cases target : Survey.target? ⟨side, none⟩ grid position exit.name with
  | none =>
    refine ⟨.refl grid, ?_⟩
    rintro next ⟨direction, there, follows, rfl⟩
    by_contra unknown
    have free : grid.get? (position.move direction) = none := by
      simpa [Grid.Maps] using unknown
    have aimed : Survey.target? ⟨side, none⟩ grid position exit.name =
        some (position.move direction) :=
      Survey.target?_eq_some_iff.mpr ⟨direction, follows.named, rfl, follows.inside, free⟩
    rw [target] at aimed
    cases aimed
  | some next =>
    obtain ⟨direction, named, rfl, inside, _⟩ := Survey.target?_eq_some_iff.mp target
    have budget : Machine.budgetOf none = Machine.unlimited := rfl
    obtain ⟨there, fork, found, tried, waiting⟩ := exists_attempt_direction compiled fits walkable
      waits (layout.known _ _ stands).1 listed named
    simp only [budget, tried, Except.bind]
    -- An exit has one direction and one destination.
    have only {next : Position} (leaves : Leaves world side here position exit next) :
        Follows world side here position exit direction there ∧
          next = position.move direction := by
      obtain ⟨other, behind, follows, rfl⟩ := leaves
      obtain rfl := Direction.name_inj (follows.named.symm.trans named)
      obtain rfl := Option.some.inj (follows.leads.symm.trans found)
      exact ⟨follows, rfl⟩
    cases followed : Survey.follow? (Answer.event ⟨exit.message, there, true⟩) with
    | none =>
      refine ⟨.refl grid, ?_⟩
      intro next leaves
      obtain ⟨follows, rfl⟩ := only leaves
      have onward : Survey.follow? (Answer.event ⟨exit.message, there, true⟩) = some there.room :=
        Survey.follow?_eq_some_iff.mpr ⟨rfl, follows.whole, follows.vault, follows.other⟩
      rw [followed] at onward
      cases onward
    | some room =>
      obtain ⟨described, whole, vault, other⟩ := Survey.follow?_eq_some_iff.mp followed
      obtain rfl : there.room = room := Option.some.inj described
      have follows : Follows world side here position exit direction there :=
        ⟨indoors, listed, named, inside, found, whole, vault, other⟩
      have beside : placed (position.move direction) = some there :=
        (layout.adjoins _ _ _ _ _ stands listed named inside found).resolve_right
          (fun outside => outside vault)
      have onward : Onward world side placed position (position.move direction) :=
        ⟨here, exit, stands, direction, there, follows, rfl⟩
      exact ((deeper beside waiting).head onward).weaken fun next leaves => (only leaves).2

theorem ends_tryExits {descend : Adventure → Room → Position → Survey.Mapping Unit} {depth : Nat}
    (deeper : ∀ {there : Place} {fork : Adventure} {next : Position} {grid : Grid},
      placed next = some there → world.Waits image there fork → unmapped side grid < depth →
      Ends world side placed next grid (· = next) (ending (descend fork there.room next) grid))
    (stands : placed position = some here) (indoors : here.title ≠ door)
    (waits : world.Waits image here game) {exits : List Exit}
    (listed : ∀ exit ∈ exits, exit ∈ here.exits) {grid : Grid} (shallow : unmapped side grid < depth) :
    Ends world side placed position grid
      (fun next => ∃ exit ∈ exits, Leaves world side here position exit next)
      (ending ((exits.map Exit.name).forM (Survey.tryExit ⟨side, none⟩ descend game position))
        grid) := by
  induction exits generalizing grid with
  | nil => exact ⟨.refl grid, by simp⟩
  | cons exit rest ih =>
    obtain ⟨first, others⟩ := List.forall_mem_cons.mp listed
    rw [List.map_cons, List.forM, ending_bind]
    have tried := ends_tryExit compiled fits walkable layout
      (fun beside waiting => deeper beside waiting shallow) stands indoors waits first
    refine (tried.bind fun middle draws => ih others ?_).weaken ?_
    · exact Nat.lt_of_le_of_lt (unmapped_mono fun _ => draws.maps) shallow
    · simp

/-- Visiting a room draws its cell and all cells behind it. The budget exceeds the number of places
without a cell, and the cell that is drawn before going on lowers both. -/
theorem ends_visit (budget : Nat) {grid : Grid} (stands : placed position = some here)
    (waits : world.Waits image here game) (shallow : unmapped side grid < budget) :
    Ends world side placed position grid (· = position)
      (ending (Survey.visit ⟨side, none⟩ budget game here.room position) grid) := by
  induction budget generalizing here game position grid with
  | zero => exact absurd shallow (Nat.not_lt_zero _)
  | succ budget ih =>
    rw [Survey.ending_visit_succ]
    by_cases unknown : grid.get? position = none
    · rw [if_pos unknown]
      cases read : Cell.parse here.room.description with
      | error error => exact ⟨position, .refl, here, stands, read⟩
      | ok cell =>
        have shown : Shows placed position (.ok cell) := ⟨here, stands, read⟩
        simp only [Except.bind]
        by_cases last : here.room.title = door
        · rw [if_pos last]
          refine Ends.insert unknown shown (fun next onward => (onward.leaves stands).1 last) ?_
          exact ⟨.refl _, fun _ => False.elim⟩
        · rw [if_neg last]
          have fewer := unmapped_insert (layout.known _ _ stands).2 unknown cell
          refine Ends.insert unknown shown (fun next onward => (onward.leaves stands).2) ?_
          exact ends_tryExits compiled fits walkable layout ih stands last waits
            (fun _ listed => listed) (Nat.lt_of_lt_of_le fewer (Nat.le_of_lt_succ shallow))
    · rw [if_neg unknown]
      refine ⟨.refl grid, ?_⟩
      rintro _ rfl
      exact Option.isSome_iff_ne_none.mpr unknown

end Walk

/-- Mapping the vault of a compiled world from the corner at the entrance, where the game waits: the
walk fails exactly when a room that can be reached quotes no number or operator, and else maps
exactly the places that can be reached, each to the cell that its room shows. Such a room is all
that it fails for, so it always comes to its end. -/
theorem run_maps_reachable {world : World} {image : Bytes} {side : Int}
    {placed : Position → Option Place} (compiled : world.compile = .ok image)
    (fits : image.length ≤ Image.maxBytes) (walkable : world.Walkable)
    (layout : Layout world side placed) {start : Place} (entered : placed .entrance = some start)
    {game : Adventure} (waits : world.Waits image start game) :
    ((∃ error, (Survey.run ⟨side, none⟩ game start.room).value = .error error) ↔
      ∃ position here, Reaches world side placed .entrance position ∧
        placed position = some here ∧ ¬ Quotes here.description.toList) ∧
    (∀ error, (Survey.run ⟨side, none⟩ game start.room).value = .error error →
      ∃ position here, Reaches world side placed .entrance position ∧
        placed position = some here ∧ error = .noVaultCell here.description) ∧
    ∀ grid, (Survey.run ⟨side, none⟩ game start.room).value = .ok grid →
      ∀ position cell, grid.get? position = some cell ↔
        Reaches world side placed .entrance position ∧ Shows placed position (.ok cell) := by
  have ends := ends_visit compiled fits walkable layout (side.toNat * side.toNat + 1) entered waits
    (unmapped_lt side .empty)
  rw [Survey.value_run]
  cases ended : ending (Survey.visit ⟨side, none⟩ (side.toNat * side.toNat + 1) game start.room
      .entrance) .empty with
  | error error =>
    rw [ended] at ends
    obtain ⟨position, reached, here, stands, unread⟩ := ends
    refine ⟨⟨fun _ => ⟨position, here, reached, stands, ?_⟩, fun _ => ⟨error, rfl⟩⟩, ?_, nofun⟩
    · rw [← Cell.exists_parse_iff]
      rintro ⟨cell, read⟩
      rw [unread] at read
      cases read
    · rintro _ ⟨⟩
      exact ⟨position, here, reached, stands, Cell.error_of_parse unread⟩
  | ok last =>
    rw [ended] at ends
    obtain ⟨_, grid⟩ := last
    obtain ⟨draws, mapped⟩ := ends
    have shown {position : Position} {cell : Cell} (found : grid.get? position = some cell) :
        Reaches world side placed .entrance position ∧ Shows placed position (.ok cell) :=
      (draws.drawn position cell found).resolve_left nofun
    have drawn {position : Position} (reached : Reaches world side placed .entrance position) :
        ∃ cell, grid.get? position = some cell :=
      Grid.maps_iff.mp (draws.maps_of_reaches (mapped _ rfl) reached)
    refine ⟨⟨nofun, ?_⟩, nofun, ?_⟩
    · rintro ⟨position, here, reached, stands, unquoted⟩
      obtain ⟨cell, found⟩ := drawn reached
      obtain ⟨_, there, known, read⟩ := shown found
      obtain rfl := Option.some.inj (stands.symm.trans known)
      exact absurd (Cell.exists_parse_iff.mp ⟨cell, read⟩) unquoted
    · rintro _ ⟨⟩ position cell
      refine ⟨shown, ?_⟩
      rintro ⟨reached, here, stands, read⟩
      obtain ⟨other, found⟩ := drawn reached
      obtain ⟨_, there, known, alike⟩ := shown found
      obtain rfl := Option.some.inj (stands.symm.trans known)
      obtain rfl := Except.ok.inj (read.symm.trans alike)
      exact found

/-- The corner of a small vault. -/
def corner : Place where
  id := "corner"
  title := "Vault Antechamber"
  description := "A '22' here."
  items := []
  exits := [⟨"east", "gate", ""⟩, ⟨"north", "cave", ""⟩]
  deeds := []

/-- The door of a small vault. -/
def gate : Place where
  id := "gate"
  title := "Vault Door"
  description := "A '+' here."
  items := []
  exits := [⟨"west", "corner", ""⟩]
  deeds := []

/-- A vault of two rooms, with a cave beside it. -/
def smallVault : World where
  start := "corner"
  intro := ""
  places := [corner, gate, ⟨"cave", "Cave", "A cave.", [], [], []⟩]

theorem walkable_smallVault : smallVault.Walkable := by
  refine ⟨⟨by decide, ?_⟩, ?_, by decide, ?_⟩
  · refine List.forall_mem_cons.mpr ⟨?_, List.forall_mem_cons.mpr ⟨?_,
      List.forall_mem_singleton.mpr ?_⟩⟩
    · constructor <;> decide
    · constructor <;> decide
    · constructor <;> decide
  · refine List.forall_mem_cons.mpr ⟨?_, List.forall_mem_cons.mpr ⟨?_,
      List.forall_mem_singleton.mpr ?_⟩⟩
    · apply Place.legible_of_plain <;> decide
    · apply Place.legible_of_plain <;> decide
    · apply Place.legible_of_plain <;> decide
  · have silent : ∀ place ∈ smallVault.places, ∀ exit ∈ place.exits, exit.message = "" := by decide
    intro place member exit listed
    rw [silent place member exit listed]
    exact World.preface_empty

/-- Where the rooms of the small vault are. -/
def smallLayout (position : Position) : Option Place :=
  if position = ⟨0, 0⟩ then some corner else if position = ⟨1, 0⟩ then some gate else none

theorem smallLayout_eq_some {position : Position} {here : Place}
    (stands : smallLayout position = some here) :
    (position = ⟨0, 0⟩ ∧ here = corner) ∨ (position = ⟨1, 0⟩ ∧ here = gate) := by
  unfold smallLayout at stands
  split at stands
  · rename_i first
    exact .inl ⟨first, (Option.some.inj stands).symm⟩
  · split at stands
    · rename_i second
      exact .inr ⟨second, (Option.some.inj stands).symm⟩
    · cases stands

theorem layout_smallVault : Layout smallVault 2 smallLayout := by
  constructor
  · intro position here stands
    rcases smallLayout_eq_some stands with ⟨rfl, rfl⟩ | ⟨rfl, rfl⟩
    · exact ⟨List.mem_cons_self, by decide⟩
    · exact ⟨List.mem_cons_of_mem _ List.mem_cons_self, by decide⟩
  · intro position here exit direction there stands listed named _ found
    rcases smallLayout_eq_some stands with ⟨rfl, rfl⟩ | ⟨rfl, rfl⟩
    · rcases List.mem_pair.mp listed with rfl | rfl
      · obtain rfl : .east = direction := Direction.name_inj named
        exact .inl found
      · obtain rfl : World.Place.mk "cave" "Cave" "A cave." [] [] [] = there :=
          Option.some.inj found
        exact .inr (by decide)
    · obtain rfl := List.mem_singleton.mp listed
      obtain rfl : .west = direction := Direction.name_inj named
      exact .inl found

theorem shows_smallVault {position : Position} {cell : Cell} :
    Shows smallLayout position (.ok cell) ↔
      (position = ⟨0, 0⟩ ∧ cell = .number 22) ∨ (position = ⟨1, 0⟩ ∧ cell = .operator .plus) := by
  have number : Cell.parse corner.description = .ok (.number 22) :=
    Cell.parse_of_find? (by decide +kernel)
  have sign : Cell.parse gate.description = .ok (.operator .plus) := rfl
  constructor
  · rintro ⟨here, stands, read⟩
    rcases smallLayout_eq_some stands with ⟨rfl, rfl⟩ | ⟨rfl, rfl⟩
    · exact .inl ⟨rfl, Except.ok.inj (read.symm.trans number)⟩
    · exact .inr ⟨rfl, Except.ok.inj (read.symm.trans sign)⟩
  · rintro (⟨rfl, rfl⟩ | ⟨rfl, rfl⟩)
    · exact ⟨corner, rfl, number⟩
    · exact ⟨gate, rfl, sign⟩

/-- The walk through the small vault maps both rooms. -/
theorem run_maps_reachable_smallVault :
    ∃ image game grid, smallVault.compile = .ok image ∧ image.length ≤ Image.maxBytes ∧
      smallVault.Walkable ∧ Layout smallVault 2 smallLayout ∧
      smallLayout .entrance = some corner ∧ smallVault.Waits image corner game ∧
      (Survey.run ⟨2, none⟩ game corner.room).value = .ok grid ∧
      ∀ position cell, grid.get? position = some cell ↔
        (position = ⟨0, 0⟩ ∧ cell = .number 22) ∨ (position = ⟨1, 0⟩ ∧ cell = .operator .plus) := by
  obtain ⟨image, compiled, fits⟩ : ∃ image, smallVault.compile = .ok image ∧
      image.length ≤ Image.maxBytes := by
    apply World.exists_image <;> decide +kernel
  have walkable := walkable_smallVault
  have layout := layout_smallVault
  obtain ⟨words, decoded, installed⟩ := World.installed_of_compile compiled fits
  obtain ⟨_, start, game, _, found, _, waits⟩ := World.waits_opening installed decoded
    (walkable.playable compiled) World.preface_empty walkable.places false
  obtain rfl : corner = start := Option.some.inj found
  obtain ⟨fails, _, maps⟩ := run_maps_reachable compiled fits walkable layout rfl waits
  have onward : Onward smallVault 2 smallLayout .entrance ⟨1, 0⟩ :=
    ⟨corner, ⟨"east", "gate", ""⟩, rfl, .east, gate, ⟨by decide, List.mem_cons_self, rfl, by decide,
      rfl, by decide, by decide, by decide⟩, rfl⟩
  cases mapped : (Survey.run ⟨2, none⟩ game corner.room).value with
  | error error =>
    obtain ⟨position, here, _, stands, unquoted⟩ := fails.mp ⟨error, mapped⟩
    have shown : ∃ cell, Shows smallLayout position (.ok cell) := by
      rcases smallLayout_eq_some stands with ⟨first, _⟩ | ⟨second, _⟩
      · exact ⟨_, shows_smallVault.mpr (.inl ⟨first, rfl⟩)⟩
      · exact ⟨_, shows_smallVault.mpr (.inr ⟨second, rfl⟩)⟩
    obtain ⟨cell, there, known, read⟩ := shown
    obtain rfl := Option.some.inj (stands.symm.trans known)
    exact absurd (Cell.exists_parse_iff.mp ⟨cell, read⟩) unquoted
  | ok grid =>
    refine ⟨image, game, grid, compiled, fits, walkable, layout, rfl, waits, mapped, ?_⟩
    intro position cell
    rw [maps grid mapped, shows_smallVault, and_iff_right_iff_imp]
    rintro (⟨rfl, _⟩ | ⟨rfl, _⟩)
    · exact .refl
    · exact .single onward

end Vault

end AdventureMachine
