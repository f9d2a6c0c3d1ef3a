import AdventureMachine.Proofs.VaultWalks

/-! The search for the walk that opens the door of the vault. It tries the walks in their order and
keeps the first one to each standing. The walk that is looked for starts with such walks only, so
dropping the others loses nothing. -/
namespace AdventureMachine.Vault

section Search

variable {task : Task} {grid : Grid} {there : Standing} {direction : Direction}
  {moves : List Direction} {walk next : Walk} {frontier : Frontier}

/-- The index that the search looks cells up in. -/
theorem Grid.getElem?_ofList (grid : Grid) (position : Position) :
    (Std.HashMap.ofList grid.cells)[position]? = grid.get? position := by
  cases found : grid.get? position with
  | none =>
    refine Std.HashMap.getElem?_ofList_of_contains_eq_false ?_
    have missing := List.lookup_eq_none_iff.mp found
    rw [Bool.eq_false_iff, ne_eq, List.contains_iff_mem]
    rintro member
    obtain ⟨entry, listed, rfl⟩ := List.mem_map.mp member
    simpa using missing entry listed
  | some cell =>
    have distinct := List.pairwise_map.mp grid.distinct
    exact Std.HashMap.getElem?_ofList_of_mem (beq_self_eq_true position)
      (distinct.imp fun different => by simpa using different) (Grid.mem_of_get? found)

/-- The moves of a walk from the first to the latest. -/
def Walk.path (walk : Walk) : List Direction := walk.moves.reverse

theorem step?_eq_some_iff : walk.step? grid.get? task.side direction = some next ↔
    Steps task grid walk.standing direction next.standing ∧
      next.path = walk.path ++ [direction] := by
  obtain ⟨position, weight, pending, moves⟩ := next
  simp only [Walk.step?, Walk.path, Walk.standing, Position.inside, Option.bind_eq_bind,
    Option.bind_eq_some_iff, Option.guard_eq_some', Bool.and_eq_true, decide_eq_true_eq, bne_iff_ne]
  constructor
  · rintro ⟨_, ⟨⟨⟨⟨west, south⟩, east⟩, north⟩, away⟩, cell, found, ⟨after, waiting⟩, folded,
      _, literal, same⟩
    cases same
    exact ⟨⟨rfl, ⟨west, east⟩, ⟨south, north⟩, away, ⟨cell, found, fold_eq_some_iff.mp folded⟩,
      literal⟩, by simp⟩
  · rintro ⟨⟨moved, column, row, away, ⟨cell, found, enters⟩, literal⟩, same⟩
    cases moved
    refine ⟨(), ⟨⟨⟨⟨column.1, row.1⟩, column.2⟩, row.2⟩, away⟩, cell, found, (weight, pending),
      fold_eq_some_iff.mpr enters, (), literal, ?_⟩
    have reversed := congrArg List.reverse same
    simp only [List.reverse_reverse, List.reverse_append, List.reverse_singleton,
      List.singleton_append] at reversed
    rw [reversed]
    rfl

theorem atDoor_iff : walk.atDoor task.side = true ↔ walk.standing.position = task.door := by
  simp [Walk.atDoor, Walk.standing, Task.door]

theorem standing_eq_goal_iff :
    walk.standing = task.goal ↔ walk.atDoor task.side = true ∧ walk.opens task = true := by
  simp only [Walk.standing, Task.goal, Task.door, Walk.atDoor, Walk.opens, Standing.mk.injEq,
    beq_iff_eq, Bool.and_eq_true, Option.isNone_iff_eq_none]
  tauto

/-- What the search has found out: the frontier holds those of the `latest` walks that are kept,
latest first, and it has seen where the kept ones of all the `known` walks stand. None of the known
walks is the one that is looked for. -/
structure Explored (task : Task) (grid : Grid) (known latest : Set (List Direction))
    (frontier : Frontier) : Prop where
  kept : ∀ walk ∈ frontier.walks, walk.path ∈ latest ∧ Kept task grid walk.path walk.standing
  listed : ∀ moves ∈ latest, ∀ there, Kept task grid moves there →
    ∃ walk ∈ frontier.walks, walk.path = moves
  sorted : frontier.walks.Pairwise fun later earlier => Sooner earlier.path later.path
  seen : ∀ there, there ∈ frontier.seen ↔ ∃ moves ∈ known, Kept task grid moves there
  shut : ∀ moves ∈ known, ¬ First task grid moves

/-- A part of the search either ends it with the walk that is looked for or leaves a frontier. -/
def Yields (task : Task) (grid : Grid) (left : Frontier → Prop) : Except Walk Frontier → Prop
  | .error opening => First task grid opening.path
  | .ok frontier => left frontier

theorem Kept.not_first (kept : Kept task grid moves there) : ¬ First task grid moves := by
  intro first
  refine kept.ongoing first.moved ?_
  rw [kept.least.leads.functional first.least.leads]
  rfl

variable {known latest : Set (List Direction)}

theorem Explored.congr {known' latest' : Set (List Direction)}
    (explored : Explored task grid known latest frontier)
    (known_iff : ∀ moves there, Least task grid moves there → (moves ∈ known ↔ moves ∈ known'))
    (latest_iff : ∀ moves there, Least task grid moves there → (moves ∈ latest ↔ moves ∈ latest')) :
    Explored task grid known' latest' frontier where
  kept walk member := by
    obtain ⟨late, kept⟩ := explored.kept walk member
    exact ⟨(latest_iff _ _ kept.least).mp late, kept⟩
  listed moves late there kept :=
    explored.listed moves ((latest_iff _ _ kept.least).mpr late) there kept
  sorted := explored.sorted
  seen there := by
    rw [explored.seen there]
    exact exists_congr fun moves => and_congr_left fun kept => known_iff moves there kept.least
  shut moves member first := explored.shut moves ((known_iff _ _ first.least).mpr member) first

/-- A walk that is not kept changes nothing. -/
theorem Explored.skip (explored : Explored task grid known latest frontier)
    (dropped : ∀ there, ¬ Kept task grid moves there) (shut : ¬ First task grid moves) :
    Explored task grid (insert moves known) (insert moves latest) frontier where
  kept walk member := (explored.kept walk member).imp_left (Set.mem_insert_of_mem moves)
  listed other late there kept := by
    rcases late with rfl | late
    · exact absurd kept (dropped there)
    · exact explored.listed other late there kept
  sorted := explored.sorted
  seen there := by simp [explored.seen there, dropped there]
  shut other member := by
    rcases member with rfl | member
    · exact shut
    · exact explored.shut other member

theorem Explored.keep (explored : Explored task grid known latest frontier)
    (kept : Kept task grid next.path next.standing)
    (later : ∀ moves ∈ latest, Sooner moves next.path) :
    Explored task grid (insert next.path known) (insert next.path latest)
      ⟨next :: frontier.walks, frontier.seen.insert next.standing⟩ where
  kept walk member := by
    rcases List.mem_cons.mp member with rfl | member
    · exact ⟨Set.mem_insert _ _, kept⟩
    · exact (explored.kept walk member).imp_left (Set.mem_insert_of_mem _)
  listed moves late there kept' := by
    rcases late with rfl | late
    · exact ⟨next, List.mem_cons_self, rfl⟩
    · obtain ⟨walk, member, same⟩ := explored.listed moves late there kept'
      exact ⟨walk, List.mem_cons_of_mem _ member, same⟩
  sorted := List.pairwise_cons.mpr
    ⟨fun walk member => later walk.path (explored.kept walk member).1, explored.sorted⟩
  seen there := by
    have reached : next.standing = there ↔ Kept task grid next.path there :=
      ⟨fun same => same ▸ kept, fun kept' => kept.least.leads.functional kept'.least.leads⟩
    simp [explored.seen there, reached]
  shut moves member := by
    rcases member with rfl | member
    · exact kept.not_first
    · exact explored.shut moves member

variable (explored : Explored task grid known latest frontier)
  (known_iff : ∀ moves there, Least task grid moves there →
    (moves ∈ known ↔ Sooner moves next.path))
  (leads : Leads task grid next.path next.standing)

include explored known_iff leads

/-- A walk that opens the door is the first one when all sooner walks are known. -/
theorem Explored.first (moved : next.path ≠ []) (goal : next.standing = task.goal) :
    First task grid next.path := by
  obtain ⟨sooner, first, same | before⟩ := Opens.exists_first ⟨moved, goal ▸ leads⟩
  · exact same ▸ first
  · exact absurd first (explored.shut sooner ((known_iff _ _ first.least).mpr before))

/-- A walk to a new standing is the first one when all sooner walks are known. -/
theorem Explored.least (ongoing : Ongoing task next.path next.standing)
    (fresh : next.standing ∉ frontier.seen) : Least task grid next.path next.standing := by
  obtain ⟨sooner, least, same | before⟩ := leads.exists_least
  · exact same ▸ least
  · refine absurd ((explored.seen next.standing).mpr ⟨sooner, ?_, least, ?_⟩) fresh
    · exact (known_iff _ _ least).mpr before
    · exact leads.ongoing least.leads ongoing

/-- A walk to a standing that was seen is not the first one. -/
theorem Explored.not_kept (seen : next.standing ∈ frontier.seen) :
    ¬ Kept task grid next.path there := by
  intro kept
  obtain ⟨sooner, member, kept'⟩ := (explored.seen next.standing).mp seen
  have before := (known_iff _ _ kept'.least).mp member
  rw [← leads.functional kept.least.leads] at kept
  exact kept.least.not_sooner kept'.least.leads before

end Search

section Rounds

variable {task : Task} {grid : Grid} {there : Standing} {direction : Direction}
  {moves : List Direction} {walk : Walk} {frontier : Frontier} {count : ℕ}
  {known latest : Set (List Direction)}

theorem not_leads_of_step?_eq_none (kept : Kept task grid walk.path walk.standing)
    (blocked : walk.step? grid.get? task.side direction = none) :
    ¬ Leads task grid (walk.path ++ [direction]) there := by
  intro leads
  obtain ⟨here, before, -, step⟩ := leads.of_concat
  obtain rfl := kept.least.leads.functional before
  have taken : walk.step? grid.get? task.side direction =
      some ⟨there.position, there.weight, there.pending, direction :: walk.moves⟩ :=
    step?_eq_some_iff.mpr ⟨step, List.reverse_cons⟩
  rw [blocked] at taken
  cases taken

/-- A step from a walk that is kept, tried when all sooner walks are known. -/
theorem Explored.extend (explored : Explored task grid known latest frontier)
    (kept : Kept task grid walk.path walk.standing)
    (later : ∀ moves ∈ latest, Sooner moves (walk.path ++ [direction]))
    (known_iff : ∀ moves there, Least task grid moves there →
      (moves ∈ known ↔ Sooner moves (walk.path ++ [direction]))) :
    Yields task grid (Explored task grid (insert (walk.path ++ [direction]) known)
      (insert (walk.path ++ [direction]) latest))
      (frontier.extend task grid.get? walk direction) := by
  unfold Frontier.extend
  cases stepped : walk.step? grid.get? task.side direction with
  | none =>
    exact explored.skip (fun _ again => not_leads_of_step?_eq_none kept stepped again.least.leads)
      (fun first => not_leads_of_step?_eq_none kept stepped first.least.leads)
  | some next =>
    obtain ⟨step, path⟩ := step?_eq_some_iff.mp stepped
    have leads : Leads task grid next.path next.standing :=
      path ▸ .move kept.least.leads kept.ongoing step
    have moved : next.path ≠ [] := by simp [path]
    have standing_of_first (first : First task grid next.path) : next.standing = task.goal :=
      leads.functional first.least.leads
    rw [← path] at later known_iff ⊢
    -- only the last of the four outcomes keeps the walk
    by_cases door : next.atDoor task.side = true
    · by_cases opens : next.opens task = true
      · simp only [door, opens, if_true]
        exact explored.first known_iff leads moved (standing_eq_goal_iff.mpr ⟨door, opens⟩)
      · simp only [door, opens, if_true]
        refine explored.skip (fun there again => ?_) (fun first => ?_)
        · refine again.ongoing moved ?_
          rw [← leads.functional again.least.leads, atDoor_iff.mp door]
        · exact opens (standing_eq_goal_iff.mp (standing_of_first first)).2
    · have ongoing : Ongoing task next.path next.standing :=
        fun _ here => door (atDoor_iff.mpr here)
      by_cases seen : next.standing ∈ frontier.seen
      · simp only [door, Std.HashSet.contains_iff_mem.mpr seen, if_true]
        refine explored.skip (fun _ => explored.not_kept known_iff leads seen) (fun first => ?_)
        exact door (standing_eq_goal_iff.mp (standing_of_first first)).1
      · simp only [door, Std.HashSet.contains_iff_mem, seen, if_false]
        exact explored.keep ⟨explored.least known_iff leads ongoing seen, ongoing⟩ later

theorem Yields.bind {left after : Frontier → Prop} {first : Except Walk Frontier}
    {rest : Frontier → Except Walk Frontier} (yields : Yields task grid left first)
    (continues : ∀ frontier, left frontier → Yields task grid after (rest frontier)) :
    Yields task grid after (first >>= rest) := by
  cases first with
  | error opening => exact yields
  | ok frontier => exact continues frontier yields

theorem Yields.imp {left after : Frontier → Prop} {result : Except Walk Frontier}
    (yields : Yields task grid left result) (implies : ∀ frontier, left frontier → after frontier) :
    Yields task grid after result := by
  cases result with
  | error opening => exact yields
  | ok frontier => exact implies frontier yields

/-- The walks of a round: each walk of the frontier with each direction, in the order they are
tried. -/
def Frontier.trials (frontier : Frontier) : List (Walk × Direction) :=
  frontier.walks.reverse.flatMap fun walk => Direction.all.map fun direction => (walk, direction)

/-- The moves of a walk that is tried. -/
def trial (candidate : Walk × Direction) : List Direction := candidate.1.path ++ [candidate.2]

theorem foldlM_flatMap {Item Part State : Type} {expand : Item → List Part}
    {step : State → Part → Except Walk State} (items : List Item) (state : State) :
    items.foldlM (fun state item => (expand item).foldlM step state) state =
      (items.flatMap expand).foldlM step state := by
  induction items generalizing state with
  | nil => rfl
  | cons item rest ih => simp [ih]

theorem advance_eq (cell? : Position → Option Cell) :
    frontier.advance task cell? = frontier.trials.foldlM
      (fun next candidate => next.extend task cell? candidate.1 candidate.2)
      ⟨[], frontier.seen⟩ := by
  rw [Frontier.advance, Frontier.trials, ← foldlM_flatMap]
  simp only [List.foldlM_map]

/-- The search after all walks of up to a number of moves. -/
def Level (task : Task) (grid : Grid) (count : ℕ) (frontier : Frontier) : Prop :=
  Explored task grid {moves | moves.length ≤ count} {moves | moves.length = count} frontier

/-- What a round tries: walks with one move more, in order, and all that can be first. -/
structure Round (task : Task) (grid : Grid) (count : ℕ) (tried : List (List Direction)) : Prop where
  sorted : tried.Pairwise Sooner
  length : ∀ moves ∈ tried, moves.length = count + 1
  complete : ∀ moves there, Least task grid moves there → moves.length = count + 1 → moves ∈ tried

theorem Direction.mem_all (direction : Direction) : direction ∈ Direction.all := by
  cases direction <;> decide

theorem Direction.pairwise_all :
    Direction.all.Pairwise fun left right => left.rank < right.rank := by
  decide

theorem mem_trials {candidate : Walk × Direction} :
    candidate ∈ frontier.trials ↔ candidate.1 ∈ frontier.walks := by
  obtain ⟨walk, direction⟩ := candidate
  simp [Frontier.trials, Direction.mem_all]

theorem Level.round (level : Level task grid count frontier) :
    Round task grid count (frontier.trials.map trial) where
  sorted := by
    rw [List.pairwise_map, Frontier.trials, List.pairwise_flatMap]
    constructor
    · intro walk _
      rw [List.pairwise_map]
      exact Direction.pairwise_all.imp sooner_concat_self
    · rw [List.pairwise_reverse]
      refine level.sorted.imp fun sooner => ?_
      simp only [List.mem_map]
      rintro _ ⟨left, -, rfl⟩ _ ⟨right, -, rfl⟩
      exact sooner.concat
  length := by
    simp only [List.mem_map]
    rintro _ ⟨candidate, member, rfl⟩
    have length : candidate.1.path.length = count := (level.kept _ (mem_trials.mp member)).1
    simp [trial, length]
  complete moves there least length := by
    obtain ⟨before, last, rfl⟩ :=
      (List.eq_nil_or_concat' moves).resolve_left fun empty => by simp [empty] at length
    obtain ⟨here, kept, -⟩ := least.of_concat
    obtain ⟨walk, member, same⟩ :=
      level.listed before (by simpa using length) here kept
    exact List.mem_map.mpr ⟨(walk, last), mem_trials.mpr member, by simp [trial, same]⟩

/-- In the order of a round, the walks before one that is tried are those that come sooner. -/
theorem Round.known_iff {done rest : List (List Direction)} {candidate : List Direction}
    (round : Round task grid count (done ++ candidate :: rest))
    (least : Least task grid moves there) :
    moves.length ≤ count ∨ moves ∈ done ↔ Sooner moves candidate := by
  have length := round.length candidate (by simp)
  obtain ⟨-, remaining, before⟩ := List.pairwise_append.mp round.sorted
  constructor
  · rintro (short | member)
    · exact sooner_of_length_lt (by omega)
    · exact before moves member candidate List.mem_cons_self
  · intro sooner
    rcases Nat.le_or_eq_of_le_succ (length ▸ sooner.length_le) with short | same
    · exact .inl short
    · have member := round.complete moves there least same
      rcases List.mem_append.mp member with earlier | later
      · exact .inr earlier
      · rcases List.mem_cons.mp later with rfl | later
        · exact absurd sooner Sooner.irrefl
        · exact absurd sooner (List.rel_of_pairwise_cons remaining later).asymm

/-- The search in the middle of a round. -/
def Tried (task : Task) (grid : Grid) (count : ℕ) (done : List (List Direction))
    (frontier : Frontier) : Prop :=
  Explored task grid {moves | moves.length ≤ count ∨ moves ∈ done} {moves | moves ∈ done} frontier

/-- The run of a round, by induction on the walks that are still to be tried. -/
theorem Round.foldlM {done : List (List Direction)} {rest : List (Walk × Direction)}
    (round : Round task grid count (done ++ rest.map trial))
    (kept : ∀ candidate ∈ rest, Kept task grid candidate.1.path candidate.1.standing)
    (tried : Tried task grid count done frontier) :
    Yields task grid (Tried task grid count (done ++ rest.map trial))
      (rest.foldlM (fun next candidate => next.extend task grid.get? candidate.1 candidate.2)
        frontier) := by
  induction rest generalizing done frontier with
  | nil =>
    rw [List.map_nil, List.append_nil]
    exact tried
  | cons candidate rest ih =>
    rw [List.map_cons] at round ⊢
    obtain ⟨-, -, before⟩ := List.pairwise_append.mp round.sorted
    have step := tried.extend (kept candidate List.mem_cons_self)
      (fun moves member => before moves member (trial candidate) List.mem_cons_self)
      (fun moves there least => round.known_iff least)
    rw [List.append_cons] at round ⊢
    rw [List.foldlM_cons]
    refine step.bind fun next explored => ?_
    refine ih round (fun candidate member => kept candidate (List.mem_cons_of_mem _ member)) ?_
    refine explored.congr (fun moves there _ => ?_) (fun moves there _ => ?_)
    · simp only [Set.mem_insert_iff, Set.mem_ofPred_eq, List.mem_append, List.mem_singleton, trial]
      tauto
    · simp [trial, or_comm]

/-- A round leads from all walks of up to a number of moves to those of up to one more. -/
theorem Level.advance (level : Level task grid count frontier) :
    Yields task grid (Level task grid (count + 1)) (frontier.advance task grid.get?) := by
  have round := level.round
  have started : Tried task grid count [] ⟨[], frontier.seen⟩ :=
    ⟨by simp, by simp, .nil, by simpa using level.seen, by simpa using level.shut⟩
  rw [advance_eq]
  have kept (candidate : Walk × Direction) (member : candidate ∈ frontier.trials) :
      Kept task grid candidate.1.path candidate.1.standing :=
    (level.kept candidate.1 (mem_trials.mp member)).2
  have run := Round.foldlM (by simpa using round) kept started
  rw [List.nil_append] at run
  refine run.imp fun next tried => ?_
  refine tried.congr (fun moves there least => ?_) (fun moves there least => ?_)
  · constructor
    · rintro (short | member)
      · exact Nat.le_succ_of_le short
      · exact (round.length moves member).le
    · intro short
      exact (Nat.le_or_eq_of_le_succ short).imp_right (round.complete moves there least)
  · exact ⟨round.length moves, round.complete moves there least⟩

theorem kept_nil (task : Task) (grid : Grid) : Kept task grid [] task.start where
  least := by
    refine ⟨.start, fun other _ => ?_⟩
    cases other with
    | nil => exact .inl rfl
    | cons => exact .inr (sooner_of_length_lt (by simp))
  ongoing moved := absurd rfl moved

theorem level_start (task : Task) (grid : Grid) : Level task grid 0
    ⟨[.start task], Std.HashSet.emptyWithCapacity.insert (Walk.start task).standing⟩ where
  kept walk member := by
    rw [List.mem_singleton.mp member]
    exact ⟨rfl, kept_nil task grid⟩
  listed moves empty there _ :=
    ⟨.start task, List.mem_singleton_self _, (List.length_eq_zero_iff.mp empty).symm⟩
  sorted := List.pairwise_singleton _ _
  seen there := by
    have here : (Walk.start task).standing = there ↔ Kept task grid [] there :=
      ⟨fun same => same ▸ kept_nil task grid, fun kept => kept.least.leads.eq_start.symm⟩
    simp [here]
  shut moves empty first := first.moved (List.length_eq_zero_iff.mp (Nat.le_zero.mp empty))

/-- When no walk is left, no longer one opens the door: its initial part would be left. -/
theorem Level.not_first (level : Level task grid count frontier) (exhausted : frontier.walks = []) :
    ¬ First task grid moves := by
  intro first
  have longer : count < moves.length := Nat.lt_of_not_le fun short => level.shut moves short first
  obtain ⟨here, kept⟩ := first.least.kept_take longer
  obtain ⟨walk, member, -⟩ :=
    level.listed _ (List.length_take_of_le longer.le) here kept
  simp [exhausted] at member

/-- The run of the search, by induction on its rounds. -/
theorem Level.search {index : Index} (indexed : (index[·]?) = grid.get?)
    (level : Level task grid count frontier) :
    frontier.search task index = some moves ↔ First task grid moves := by
  fun_induction Frontier.search task index frontier generalizing count with
  | case1 frontier opening result =>
    have advanced := level.advance
    rw [← indexed, result] at advanced
    have first : First task grid opening.path := advanced
    constructor
    · intro same
      cases same
      exact first
    · intro again
      exact congrArg some (first.unique again)
  | case2 frontier next result exhausted =>
    have advanced := level.advance
    rw [← indexed, result] at advanced
    have last : Level task grid (count + 1) next := advanced
    simp [last.not_first (List.isEmpty_iff.mp exhausted)]
  | case3 frontier next result _ ih =>
    have advanced := level.advance
    rw [← indexed, result] at advanced
    exact ih advanced

theorem path?_eq_some_iff : path? task grid = some moves ↔ First task grid moves :=
  (level_start task grid).search (funext grid.getElem?_ofList)

end Rounds

/-- The search ends for every grid and every task: its recursion has no bound other than the
standings that are left. What it gives opens the door, and every other walk that opens it is longer,
or as long and later in the order of directions; it gives nothing only when no walk opens the door. -/
theorem path?_first_opening (task : Task) (grid : Grid) :
    (∀ moves, path? task grid = some moves ↔
      Opens task grid moves ∧
        ∀ other, Opens task grid other → moves = other ∨ Sooner moves other) ∧
    (path? task grid = none ↔ ∀ moves, ¬ Opens task grid moves) := by
  constructor
  · intro moves
    rw [path?_eq_some_iff, first_iff]
  · constructor
    · intro none moves opens
      obtain ⟨first, found, -⟩ := opens.exists_first
      rw [path?_eq_some_iff.mpr found] at none
      cases none
    · intro shut
      rw [Option.eq_none_iff_forall_ne_some]
      intro moves found
      have first := path?_eq_some_iff.mp found
      exact shut moves ⟨first.moved, first.least.leads⟩

/-- Two rooms between the entrance of a small vault and its door. -/
def corridor : Grid := ⟨[(⟨1, 0⟩, .operator .plus), (⟨1, 1⟩, .number 8)], by decide⟩

theorem path?_first_opening_corridor : path? ⟨2, 22, 30⟩ corridor = some [.east, .north] := by
  refine ((path?_first_opening _ _).1 _).mpr ⟨⟨List.cons_ne_nil _ _, ?_⟩, ?_⟩
  · have east : Steps ⟨2, 22, 30⟩ corridor ⟨.entrance, 22, none⟩ .east ⟨⟨1, 0⟩, 22, some .plus⟩ :=
      ⟨rfl, by decide, by decide, by decide, ⟨_, rfl, .operator .plus⟩, by decide⟩
    have north : Steps ⟨2, 22, 30⟩ corridor ⟨⟨1, 0⟩, 22, some .plus⟩ .north ⟨⟨1, 1⟩, 30, none⟩ :=
      ⟨rfl, by decide, by decide, by decide, ⟨_, rfl, .plus 8⟩, by decide⟩
    exact (Leads.start.move (fun moved => absurd rfl moved) east).move (fun _ => by decide) north
  · rintro other ⟨nonempty, leads⟩
    have place := leads.position_eq
    match other with
    | [] => exact absurd rfl nonempty
    | [only] => cases only <;> cases place
    | [early, late] =>
      have below : Sooner [.east, .north] [.north, .east] := .of_lex rfl (.rel (by decide))
      cases early <;> cases late <;> first | exact .inl rfl | exact .inr below | cases place
    | _ :: _ :: _ :: _ => exact .inr (sooner_of_length_lt (by simp))

end AdventureMachine.Vault
