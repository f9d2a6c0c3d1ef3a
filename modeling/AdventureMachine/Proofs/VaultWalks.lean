import AdventureMachine.Puzzle.Vault
import Mathlib.Data.List.Induction
import Mathlib.Data.List.Shortlex

/-! Walks through the vault, told move by move, in the order of length and directions. What can
follow a walk depends on where it stands only. So of the first walk to a standing every initial part
is a first walk too. -/
namespace AdventureMachine.Vault

section Order

/-- The rank of a direction among those that are tried. -/
def Direction.rank : Direction → ℕ
  | .east => 0
  | .west => 1
  | .north => 2
  | .south => 3

/-- The shorter walk comes first, and of two walks of one length the one that is first in the order
of directions. -/
def Sooner (first second : List Direction) : Prop :=
  List.Shortlex (fun left right : Direction => left.rank < right.rank) first second

theorem Direction.rank_injective : Function.Injective Direction.rank := by
  intro left right same
  cases left <;> cases right <;> first | rfl | cases same

instance : Std.Trichotomous fun left right : Direction => left.rank < right.rank :=
  ⟨fun _ _ above below =>
    Direction.rank_injective (Nat.le_antisymm (Nat.not_lt.mp below) (Nat.not_lt.mp above))⟩

instance : Std.Asymm fun left right : Direction => left.rank < right.rank :=
  ⟨fun _ _ => Nat.lt_asymm⟩

variable {first second : List Direction} {left right : Direction}

theorem Sooner.asymm (sooner : Sooner first second) : ¬ Sooner second first :=
  Std.Asymm.asymm (r := List.Shortlex _) _ _ sooner

theorem Sooner.irrefl : ¬ Sooner first first :=
  fun sooner => sooner.asymm sooner

theorem sooner_trichotomy (first second : List Direction) :
    Sooner first second ∨ first = second ∨ Sooner second first := by
  by_cases before : Sooner first second
  · exact .inl before
  by_cases after : Sooner second first
  · exact .inr (.inr after)
  exact .inr (.inl (Std.Trichotomous.trichotomous (r := List.Shortlex _) _ _ before after))

theorem sooner_of_length_lt (less : first.length < second.length) : Sooner first second :=
  .of_length_lt less

theorem Sooner.length_le (sooner : Sooner first second) : first.length ≤ second.length := by
  rcases List.shortlex_def.mp sooner with less | ⟨equal, -⟩ <;> omega

theorem Sooner.concat (sooner : Sooner first second) :
    Sooner (first ++ [left]) (second ++ [right]) := by
  rcases List.shortlex_def.mp sooner with less | ⟨equal, lex⟩
  · exact sooner_of_length_lt (by simpa using less)
  · refine .of_lex (by simpa using equal) ?_
    clear sooner
    induction lex with
    | nil => simp at equal
    | rel less => exact .rel less
    | cons _ ih => exact .cons (ih (by simpa using equal))

theorem sooner_concat_self (less : left.rank < right.rank) :
    Sooner (first ++ [left]) (first ++ [right]) :=
  List.Shortlex.append_left ((List.shortlex_singleton_iff left right).mpr less) first

theorem wellFounded_sooner : WellFounded Sooner :=
  List.Shortlex.wf (InvImage.wf Direction.rank Nat.lt_wfRel.wf)

end Order

section Walks

/-- What entering a cell makes of the weight and of the operator that waits. -/
inductive Enters (weight : Int) : Option Operator → Cell → Int → Option Operator → Prop where
  | operator (sign : Operator) : Enters weight none (.operator sign) weight (some sign)
  | number (value : Int) : Enters weight none (.number value) weight none
  | infinite : Enters weight none .infinite weight none
  | plus (value : Int) : Enters weight (some .plus) (.number value) (weight + value) none
  | minus (value : Int) : Enters weight (some .minus) (.number value) (weight - value) none
  | times (value : Int) : Enters weight (some .times) (.number value) (weight * value) none

/-- The corner with the door. -/
def Task.door (task : Task) : Position := ⟨task.side - 1, task.side - 1⟩

/-- Where a walk starts. -/
def Task.start (task : Task) : Standing := ⟨.entrance, task.startWeight, none⟩

/-- Where a walk that opens the door ends. -/
def Task.goal (task : Task) : Standing := ⟨task.door, task.targetWeight, none⟩

/-- One move: to a neighbour in the square other than the entrance, which has a cell that can be
entered with a weight that stays a literal. -/
structure Steps (task : Task) (grid : Grid) (here : Standing) (direction : Direction)
    (there : Standing) : Prop where
  moved : there.position = here.position.move direction
  column : 0 ≤ there.position.x ∧ there.position.x < task.side
  row : 0 ≤ there.position.y ∧ there.position.y < task.side
  away : there.position ≠ .entrance
  entered : ∃ cell, grid.get? there.position = some cell ∧
    Enters here.weight here.pending cell there.weight there.pending
  literal : 0 ≤ there.weight ∧ there.weight ≤ maxLiteral

/-- Whether a walk can be continued: the door ends a walk that has come to it. -/
def Ongoing (task : Task) (moves : List Direction) (there : Standing) : Prop :=
  moves ≠ [] → there.position ≠ task.door

/-- The moves lead from the entrance to a standing. -/
inductive Leads (task : Task) (grid : Grid) : List Direction → Standing → Prop where
  | start : Leads task grid [] task.start
  | move {moves : List Direction} {direction : Direction} {here there : Standing}
      (before : Leads task grid moves here) (ongoing : Ongoing task moves here)
      (step : Steps task grid here direction there) : Leads task grid (moves ++ [direction]) there

/-- The moves lead to the door and open it. -/
def Opens (task : Task) (grid : Grid) (moves : List Direction) : Prop :=
  moves ≠ [] ∧ Leads task grid moves task.goal

variable {task : Task} {grid : Grid} {here there other : Standing} {direction : Direction}
  {moves others : List Direction}

theorem fold_eq_some_iff {weight after : Int} {pending waiting : Option Operator} {cell : Cell} :
    Walk.fold weight pending cell = some (after, waiting) ↔
      Enters weight pending cell after waiting := by
  constructor
  · intro folded
    match cell, pending with
    | .operator _, some _ => cases folded
    | .operator sign, none => cases folded; exact .operator sign
    | .number value, none => cases folded; exact .number value
    | .infinite, some _ => cases folded
    | .infinite, none => cases folded; exact .infinite
    | .number value, some .plus => cases folded; exact .plus value
    | .number value, some .minus => cases folded; exact .minus value
    | .number value, some .times => cases folded; exact .times value
  · rintro (_ | _ | _ | _ | _ | _) <;> rfl

theorem Steps.functional (step : Steps task grid here direction there)
    (again : Steps task grid here direction other) : there = other := by
  obtain ⟨cell, found, enters⟩ := step.entered
  obtain ⟨cell', found', enters'⟩ := again.entered
  have places : there.position = other.position := step.moved.trans again.moved.symm
  rw [← places, found] at found'
  cases found'
  have results := (fold_eq_some_iff.mpr enters).symm.trans (fold_eq_some_iff.mpr enters')
  obtain ⟨position, weight, pending⟩ := there
  obtain ⟨position', weight', pending'⟩ := other
  cases results
  cases places
  rfl

theorem Leads.eq_start (leads : Leads task grid [] there) : there = task.start := by
  generalize same : ([] : List Direction) = moves at leads
  cases leads with
  | start => rfl
  | move => simp at same

theorem Leads.of_concat (leads : Leads task grid (moves ++ [direction]) there) :
    ∃ here, Leads task grid moves here ∧ Ongoing task moves here ∧
      Steps task grid here direction there := by
  generalize same : moves ++ [direction] = whole at leads
  cases leads with
  | start => simp at same
  | move before ongoing step =>
    obtain ⟨rfl, last⟩ := List.append_inj' same rfl
    cases last
    exact ⟨_, before, ongoing, step⟩

theorem Leads.functional (leads : Leads task grid moves there)
    (again : Leads task grid moves other) : there = other := by
  induction leads generalizing other with
  | start => exact again.eq_start.symm
  | move _ _ step ih =>
    obtain ⟨here, before, -, step'⟩ := again.of_concat
    cases ih before
    exact step.functional step'

/-- Only the walk without moves stands at the entrance. -/
theorem Leads.eq_nil_iff (leads : Leads task grid moves there) :
    moves = [] ↔ there.position = .entrance := by
  cases leads with
  | start => simp [Task.start]
  | move _ _ step => simp [step.away]

theorem Leads.position_eq (leads : Leads task grid moves there) :
    there.position = moves.foldl Position.move .entrance := by
  induction leads with
  | start => rfl
  | move _ _ step ih => rw [List.foldl_append, ← ih, step.moved]; rfl

theorem Leads.ongoing (leads : Leads task grid moves there) (again : Leads task grid others there)
    (ongoing : Ongoing task moves there) : Ongoing task others there := by
  intro nonempty
  refine ongoing fun empty => nonempty ?_
  exact again.eq_nil_iff.mpr (leads.eq_nil_iff.mp empty)

end Walks

section Least

variable {task : Task} {grid : Grid} {there : Standing} {direction : Direction}
  {moves others : List Direction}

/-- The moves are the first that lead to a standing. -/
structure Least (task : Task) (grid : Grid) (moves : List Direction) (there : Standing) : Prop where
  leads : Leads task grid moves there
  first : ∀ other, Leads task grid other there → moves = other ∨ Sooner moves other

/-- The moves are the first that open the door. -/
structure First (task : Task) (grid : Grid) (moves : List Direction) : Prop where
  moved : moves ≠ []
  least : Least task grid moves task.goal

/-- The walks that the search keeps: the first to their standings, as far as they can be
continued. -/
structure Kept (task : Task) (grid : Grid) (moves : List Direction) (there : Standing) : Prop where
  least : Least task grid moves there
  ongoing : Ongoing task moves there

theorem Leads.least_of_not_sooner (leads : Leads task grid moves there)
    (minimal : ∀ other, Leads task grid other there → ¬ Sooner other moves) :
    Least task grid moves there := by
  refine ⟨leads, fun other reached => ?_⟩
  rcases sooner_trichotomy moves other with sooner | same | later
  · exact .inr sooner
  · exact .inl same
  · exact absurd later (minimal other reached)

theorem Leads.exists_least (leads : Leads task grid moves there) :
    ∃ least, Least task grid least there ∧ (least = moves ∨ Sooner least moves) := by
  obtain ⟨other, leads', minimal⟩ :=
    wellFounded_sooner.has_min {moves | Leads task grid moves there} ⟨moves, leads⟩
  have least := Leads.least_of_not_sooner leads' minimal
  exact ⟨other, least, least.first moves leads⟩

theorem Least.not_sooner (least : Least task grid moves there)
    (leads : Leads task grid others there) : ¬ Sooner others moves := by
  rcases least.first others leads with rfl | sooner
  · exact Sooner.irrefl
  · exact sooner.asymm

theorem Least.unique (least : Least task grid moves there) (again : Least task grid others there) :
    moves = others :=
  (least.first others again.leads).resolve_right (again.not_sooner least.leads)

theorem First.unique (first : First task grid moves) (again : First task grid others) :
    moves = others :=
  first.least.unique again.least

/-- A walk that is first to its standing was first to the standing before its last move: a sooner
one could make the same move. -/
theorem Least.of_concat (least : Least task grid (moves ++ [direction]) there) :
    ∃ here, Kept task grid moves here ∧ Steps task grid here direction there := by
  obtain ⟨here, before, ongoing, step⟩ := least.leads.of_concat
  refine ⟨here, ⟨before.least_of_not_sooner fun other reached sooner => ?_, ongoing⟩, step⟩
  have detour := Leads.move reached (before.ongoing reached ongoing) step
  exact least.not_sooner detour sooner.concat

/-- Along a first walk all shorter walks are kept. -/
theorem Least.kept_take (least : Least task grid moves there) {count : ℕ}
    (less : count < moves.length) : ∃ here, Kept task grid (moves.take count) here := by
  induction moves using List.reverseRecOn generalizing there with
  | nil => simp at less
  | append_singleton moves direction ih =>
    obtain ⟨here, kept, -⟩ := least.of_concat
    rw [List.length_append, List.length_singleton] at less
    rw [List.take_append_of_le_length (by omega)]
    rcases Nat.lt_succ_iff_lt_or_eq.mp less with shorter | rfl
    · exact ih kept.least shorter
    · exact ⟨here, by rwa [List.take_length]⟩

theorem Opens.exists_first (opens : Opens task grid moves) :
    ∃ first, First task grid first ∧ (first = moves ∨ Sooner first moves) := by
  obtain ⟨nonempty, leads⟩ := opens
  obtain ⟨first, least, sooner⟩ := leads.exists_least
  refine ⟨first, ⟨fun empty => nonempty ?_, least⟩, sooner⟩
  exact leads.eq_nil_iff.mpr (least.leads.eq_nil_iff.mp empty)

theorem first_iff : First task grid moves ↔
    Opens task grid moves ∧
      ∀ other, Opens task grid other → moves = other ∨ Sooner moves other := by
  constructor
  · intro first
    exact ⟨⟨first.moved, first.least.leads⟩, fun other opens => first.least.first other opens.2⟩
  · rintro ⟨opens, sooner⟩
    obtain ⟨least, first, same | before⟩ := opens.exists_first
    · exact same ▸ first
    · rcases sooner least ⟨first.moved, first.least.leads⟩ with same | after
      · exact same ▸ first
      · exact absurd after before.asymm

end Least

theorem Grid.mem_of_get? {grid : Grid} {position : Position} {cell : Cell}
    (found : grid.get? position = some cell) : (position, cell) ∈ grid.cells := by
  obtain ⟨before, after, split, -⟩ := List.lookup_eq_some_iff.mp found
  simp [split]

end AdventureMachine.Vault
