import AdventureMachine.Puzzle.RoomSearch
import AdventureMachine.Proofs.Excursion
import Mathlib.Logic.Relation

/-! Searching rooms depth first. A find comes with a trail: exits taken one after another, each on a
fork of the game before, through distinct rooms whose responses were refused. Playing the commands
of its path on the game itself leads to the same response and, up to storage, the same game. In a
compiled world the search is also complete: it ends, and finds nothing exactly when there is nothing
to be found in the places that can be reached. -/
namespace AdventureMachine

namespace Adventure

variable {game other : Adventure}

theorem Same.takeResponse (same : Same game other) :
    game.takeResponse.1 = other.takeResponse.1 ∧
      Same game.takeResponse.2 other.takeResponse.2 := by
  obtain ⟨text, taken⟩ := BufferedOutput.takeResponse_congr same.sink
  simp only [Adventure.takeResponse, text, true_and]
  exact ⟨same.state, same.source, taken, same.steps, same.lastHalt, same.tracing⟩

theorem Same.cycle (same : Same game other) (budget : Nat) :
    (Adventure.cycle budget game).value.1 = (Adventure.cycle budget other).value.1 ∧
      Same (Adventure.cycle budget game).value.2 (Adventure.cycle budget other).value.2 := by
  have machines : Same (game.run budget).value.machine (other.run budget).value.machine :=
    Machine.runFrom_keeps Same.step same budget 0 0 [] []
  have outcome : (game.run budget).value.outcome = (other.run budget).value.outcome :=
    (same.twin.runFrom budget 0 []).1.outcome
  obtain ⟨text, taken⟩ := machines.takeResponse
  simp only [Adventure.cycle, Logged.value_bind, outcome]
  cases (other.run budget).value.outcome with
  | error error =>
    simp only [Logged.value_pure, true_and]
    exact machines
  | ok halt =>
    simp only [text, Logged.value_pure, true_and]
    exact taken

theorem Tidy.cycle (tidy : game.Tidy) (budget : Nat) :
    Tidy (Adventure.cycle budget game).value.2 := by
  obtain ⟨count, ran⟩ := game.runFrom_eq_after budget 0 []
  have neat : Tidy (game.run budget).value.machine := by
    rw [Machine.run, ran]
    exact tidy.after count
  simp only [Adventure.cycle, Logged.value_bind]
  cases (game.run budget).value.outcome with
  | error error =>
    simp only [Logged.value_pure]
    exact neat
  | ok halt =>
    simp only [takeResponse, Logged.value_pure]
    exact ⟨neat.source, BufferedOutput.within_takeResponse _⟩

/-- What a command does on a fork, it does on every game that differs in storage only. -/
theorem Same.cycle_of_attempt {budget : Nat} {command : String} {event : Event} {fork : Adventure}
    (same : Same game other) (tidy : other.Tidy)
    (tried : (game.attempt budget command).value = .ok (event, fork)) :
    ∃ next, (Adventure.cycle budget (other.send command)).value = (.ok event, next) ∧
      Same fork next ∧ next.Tidy := by
  have queued : Same (game.fork.send command) (other.send command) := by
    rw [same.fork_eq]
    exact (tidy.fork.play (.send command)).2
  have sent : Tidy (other.send command) := tidy.play (.send command)
  obtain ⟨answers, games⟩ := queued.cycle budget
  simp only [attempt, Logged.value_bind, Logged.value_pure] at tried
  cases cycled : (Adventure.cycle budget (game.fork.send command)).value.1 with
  | error error =>
    rw [cycled] at tried
    cases tried
  | ok told =>
    rw [cycled] at tried answers
    cases tried
    exact ⟨_, Prod.ext answers.symm rfl, games, sent.cycle budget⟩

end Adventure

namespace RoomSearch

variable {query : Query} {game : Adventure} {room : Room} {path : List String}

/-- A way to an event that is accepted, and to the game behind it: exits that are not skipped are
taken one after another, each on a fork of the game before. Every event but the last is refused and
describes the next room. The trail lists the rooms that are left. -/
inductive Trail (query : Query) (event : Event) (reached : Adventure) :
    Adventure → Room → (path : List String) → (rooms : List Room) → Prop where
  | last {game : Adventure} {room : Room} {exit : String}
      (listed : exit ∈ room.exits) (taken : exit ∉ query.skippedExits)
      (tried : (game.attempt (Machine.budgetOf query.limit) exit).value = .ok (event, reached))
      (accepted : query.accept event.toResponse = true) :
      Trail query event reached game room [exit] [room]
  | onward {game fork : Adventure} {room next : Room} {exit : String} {told : Event}
      {path : List String} {rooms : List Room}
      (listed : exit ∈ room.exits) (taken : exit ∉ query.skippedExits)
      (tried : (game.attempt (Machine.budgetOf query.limit) exit).value = .ok (told, fork))
      (refused : query.accept told.toResponse = false) (described : told.room = some next)
      (later : Trail query event reached fork next path rooms) :
      Trail query event reached game room (exit :: path) (room :: rooms)

/-- The commands of a trail lead to its event on every game that differs in storage only. -/
theorem Trail.commands_eq {event : Event} {reached : Adventure} {rooms : List Room}
    (trail : Trail query event reached game room path rooms) {other : Adventure}
    (same : Adventure.Same game other) (tidy : other.Tidy) (earlier : Event) :
    ∃ last, (Adventure.commands (Machine.budgetOf query.limit) other earlier path).value =
        (.ok event, last) ∧
      Adventure.Same reached last := by
  induction trail generalizing other earlier with
  | last _ _ tried _ =>
    obtain ⟨next, cycled, alike, _⟩ := same.cycle_of_attempt tidy tried
    refine ⟨next, ?_, alike⟩
    simp only [Adventure.commands, Logged.value_bind, cycled]
    rfl
  | onward _ _ tried _ _ _ ih =>
    obtain ⟨next, cycled, alike, neat⟩ := same.cycle_of_attempt tidy tried
    obtain ⟨last, played, arrived⟩ := ih alike neat _
    refine ⟨last, ?_, arrived⟩
    simp only [Adventure.commands, Logged.value_bind, cycled]
    exact played

/-- The progress after one more response was compared. -/
def Progress.compared (progress : Progress) (response : Response) : Progress :=
  { progress with examined := response :: progress.examined }

/-- The progress after one more room was seen. -/
def Progress.seen (progress : Progress) (room : Room) : Progress :=
  { progress with visited := progress.visited.insert room.key }

@[simp]
theorem ending_note (record : Log.Record) (progress : Progress) :
    ending (note record) progress = .ok ((), progress) := rfl

@[simp]
theorem ending_examine (response : Response) (progress : Progress) :
    ending (examine query response) progress =
      .ok (query.accept response, progress.compared response) := rfl

@[simp]
theorem ending_discover (room : Room) (progress : Progress) :
    ending (discover room) progress =
      if room.key ∈ progress.visited then .ok (false, progress)
      else .ok (true, progress.seen room) := by
  simp only [discover, ending_bind, ending_get, Except.bind, ← Std.HashSet.mem_iff_contains]
  split <;> rfl

/-- What trying the first of some exits comes to. -/
theorem ending_tryExits_cons
    (descend : Adventure → Room → List String → Search (Option Find)) (exit : String)
    (rest : List String) (progress : Progress) :
    ending (tryExits query descend game path (exit :: rest)) progress =
      if exit ∈ query.skippedExits then ending (tryExits query descend game path rest) progress
      else (game.attempt (Machine.budgetOf query.limit) exit).value.bind fun (event, fork) =>
        if query.accept event.toResponse then
          .ok (some ⟨fork, event.toResponse, path ++ [exit]⟩, progress.compared event.toResponse)
        else
          match event.room with
          | none =>
            ending (tryExits query descend game path rest) (progress.compared event.toResponse)
          | some room =>
            if room.key ∈ progress.visited then
              ending (tryExits query descend game path rest) (progress.compared event.toResponse)
            else
              (ending (descend fork room (path ++ [exit]))
                ((progress.compared event.toResponse).seen room)).bind fun
                | (some found, last) => .ok (some found, last)
                | (none, last) => ending (tryExits query descend game path rest) last := by
  rw [tryExits]
  simp only [List.contains_iff_mem]
  split
  · rfl
  · rw [ending_bind, ending_lift]
    cases (game.attempt (Machine.budgetOf query.limit) exit).value with
    | error error => rfl
    | ok answer =>
      obtain ⟨event, fork⟩ := answer
      simp only [Except.map, Except.bind, ending_bind, ending_examine]
      split
      · simp only [ending_bind, ending_note, Except.bind, ending_pure]
      · cases event.room with
        | none => rfl
        | some next =>
          simp only [ending_bind, ending_discover, Progress.compared]
          by_cases known : next.key ∈ progress.visited
          · simp only [known, ↓reduceIte, Except.bind, Bool.false_eq_true]
          · simp only [known, ↓reduceIte, Except.bind, ending_bind]
            cases ending (descend fork next (path ++ [exit])) _ with
            | error error => rfl
            | ok result =>
              obtain ⟨_ | found, last⟩ := result
              · rfl
              · rfl

/-- What part of a search leaves that goes on from a room: rooms that were seen stay seen, and a
find has a trail from here through rooms that are new and distinct. -/
structure Sound (query : Query) (game : Adventure) (room : Room) (path : List String)
    (before : Progress) (result : Option Find × Progress) : Prop where
  kept : ∀ key ∈ before.visited, key ∈ result.2.visited
  found : ∀ find, result.1 = some find → ∃ event onward rooms,
    event.toResponse = find.response ∧ find.path = path ++ onward ∧
    Trail query event find.game game room onward (room :: rooms) ∧
    (∀ other ∈ rooms, other.key ∉ before.visited) ∧ (rooms.map Room.key).Nodup

/-- The rooms seen before may be counted from an earlier point on. -/
theorem Sound.earlier {before middle : Progress} {result : Option Find × Progress}
    (sound : Sound query game room path middle result)
    (grows : ∀ key ∈ before.visited, key ∈ middle.visited) :
    Sound query game room path before result := by
  refine ⟨fun key seen => sound.kept key (grows key seen), ?_⟩
  intro find found
  obtain ⟨event, onward, rooms, told, whole, trail, fresh, distinct⟩ := sound.found find found
  exact ⟨event, onward, rooms, told, whole, trail,
    fun other member seen => fresh other member (grows _ seen), distinct⟩

theorem Sound.nothing (progress : Progress) :
    Sound query game room path progress (none, progress) := by
  refine ⟨fun _ seen => seen, ?_⟩
  intro find found
  cases found

theorem mem_seen {progress : Progress} {key : String} (room : Room)
    (earlier : key ∈ progress.visited) : key ∈ (progress.seen room).visited :=
  Std.HashSet.mem_insert.mpr (.inr earlier)

theorem key_mem_seen (progress : Progress) (room : Room) : room.key ∈ (progress.seen room).visited :=
  Std.HashSet.mem_insert_self

/-- A find behind the next room is one behind this room, when the next room was not seen before. -/
theorem Sound.onward {fork : Adventure} {next : Room} {exit : String} {told : Event}
    {progress : Progress} {result : Option Find × Progress} (listed : exit ∈ room.exits)
    (taken : exit ∉ query.skippedExits)
    (tried : (game.attempt (Machine.budgetOf query.limit) exit).value = .ok (told, fork))
    (refused : query.accept told.toResponse = false) (described : told.room = some next)
    (new : next.key ∉ progress.visited)
    (sound : Sound query fork next (path ++ [exit])
      ((progress.compared told.toResponse).seen next) result) :
    Sound query game room path progress result := by
  refine ⟨fun key seen => sound.kept key (mem_seen next seen), ?_⟩
  intro find found
  obtain ⟨final, onward, rooms, same, whole, trail, fresh, distinct⟩ := sound.found find found
  refine ⟨final, exit :: onward, next :: rooms, same, by rw [whole, List.append_assoc]; rfl,
    .onward listed taken tried refused described trail, ?_, ?_⟩
  · refine List.forall_mem_cons.mpr ⟨new, ?_⟩
    exact fun other member seen => fresh other member (mem_seen next seen)
  · refine List.nodup_cons.mpr ⟨?_, distinct⟩
    intro again
    obtain ⟨other, member, alike⟩ := List.mem_map.mp again
    exact fresh other member (alike ▸ key_mem_seen _ next)

theorem sound_tryExits {descend : Adventure → Room → List String → Search (Option Find)}
    (deeper : ∀ game room path progress result,
      ending (descend game room path) progress = .ok result →
      Sound query game room path progress result)
    {exits : List String} (listed : ∀ exit ∈ exits, exit ∈ room.exits) {progress : Progress}
    {result : Option Find × Progress}
    (ended : ending (tryExits query descend game path exits) progress = .ok result) :
    Sound query game room path progress result := by
  induction exits generalizing progress with
  | nil =>
    cases ended
    exact .nothing progress
  | cons exit rest ih =>
    obtain ⟨first, others⟩ := List.forall_mem_cons.mp listed
    rw [ending_tryExits_cons] at ended
    split at ended
    · exact ih others ended
    rename_i taken
    cases tried : (game.attempt (Machine.budgetOf query.limit) exit).value with
    | error error =>
      rw [tried] at ended
      cases ended
    | ok answer =>
      obtain ⟨event, fork⟩ := answer
      simp only [tried, Except.bind] at ended
      split at ended
      · rename_i accepted
        cases ended
        refine ⟨fun _ seen => seen, ?_⟩
        rintro find ⟨⟩
        exact ⟨event, [exit], [], rfl, rfl, .last first taken tried accepted,
          List.forall_mem_nil _, List.nodup_nil⟩
      rename_i refused
      split at ended
      · exact (ih others ended).earlier fun _ seen => seen
      rename_i next described
      split at ended
      · exact (ih others ended).earlier fun _ seen => seen
      rename_i new
      cases deep : ending (descend fork next (path ++ [exit]))
          ((progress.compared event.toResponse).seen next) with
      | error error =>
        rw [deep] at ended
        cases ended
      | ok explored =>
        have sound := deeper _ _ _ _ _ deep
        rw [deep] at ended
        obtain ⟨_ | found, last⟩ := explored
        · exact (ih others ended).earlier fun key seen => sound.kept key (mem_seen next seen)
        · cases ended
          exact .onward first taken tried (by simpa using refused) described new sound

theorem sound_explore (depth : Nat) {progress : Progress} {result : Option Find × Progress}
    (ended : ending (explore query depth game room path) progress = .ok result) :
    Sound query game room path progress result := by
  induction depth generalizing game room path progress result with
  | zero => cases ended
  | succ depth ih =>
    exact sound_tryExits (fun _ _ _ _ _ deep => ih deep) (fun _ listed => listed) ended

/-- What a search comes to. -/
theorem value_run (query : Query) (game : Adventure) (start : Room) :
    (run query game start).value =
      if query.accept ⟨"", some start⟩ then
        .ok ⟨[⟨"", some start⟩], some ⟨game.fork, ⟨"", some start⟩, []⟩⟩
      else
        (ending (explore query deepest game start [])
          (Progress.seen ⟨.emptyWithCapacity, [⟨"", some start⟩]⟩ start)).map
            fun (found, last) => ⟨last.examined.reverse, found⟩ := by
  rw [run]
  split
  · rfl
  · simp only [Logged.value_bind, Progress.seen, ending]
    cases (StateT.run (explore query deepest game start []) _).run.value with
    | error error => rfl
    | ok result => rfl

/-- A search that finds something: either the start is accepted as it is, or there is a trail from
the start through distinct rooms. The path is the way of the trail, so its commands lead the game
itself to the same event and a game that shows the same, unless its cursors are beyond their bytes,
which those of no game are that is played. -/
theorem find_has_trail {start : Room} {report : Report} {find : Find}
    (searched : (run query game start).value = .ok report) (found : report.found = some find) :
    (find.path = [] ∧ query.accept ⟨"", some start⟩ = true ∧ find.response = ⟨"", some start⟩ ∧
      find.game = game.fork) ∨
    (query.accept ⟨"", some start⟩ = false ∧ ∃ event rooms,
      Trail query event find.game game start find.path rooms ∧
      event.toResponse = find.response ∧
      (rooms.map fun room => (room.title, room.description)).Nodup ∧
      (game.Tidy → ∃ last,
        (Adventure.commands (Machine.budgetOf query.limit) game Adventure.silence find.path).value =
          (.ok event, last) ∧
        last.view = find.game.view)) := by
  rw [value_run] at searched
  split at searched
  · rename_i accepted
    cases searched
    cases found
    exact .inl ⟨rfl, accepted, rfl, rfl⟩
  · rename_i refused
    cases ended : ending (explore query deepest game start [])
        (Progress.seen ⟨.emptyWithCapacity, [⟨"", some start⟩]⟩ start) with
    | error error =>
      rw [ended] at searched
      cases searched
    | ok result =>
      rw [ended] at searched
      cases searched
      obtain ⟨event, onward, rooms, told, whole, trail, fresh, distinct⟩ :=
        (sound_explore deepest ended).found find found
      obtain rfl : find.path = onward := whole
      refine .inr ⟨by simpa using refused, event, start :: rooms, trail, told, ?_, ?_⟩
      · have keys : ((start :: rooms).map Room.key).Nodup := by
          refine List.nodup_cons.mpr ⟨?_, distinct⟩
          intro again
          obtain ⟨other, member, same⟩ := List.mem_map.mp again
          exact fresh other member (same ▸ key_mem_seen _ start)
        have joined : ((start :: rooms).map fun room => (room.title, room.description)).map
            (fun pair => pair.1 ++ "\n" ++ pair.2) = (start :: rooms).map Room.key :=
          List.map_map
        exact .of_map _ (joined ▸ keys)
      · intro tidy
        obtain ⟨last, played, arrived⟩ := trail.commands_eq
          ⟨rfl, rfl, rfl, rfl, rfl, rfl⟩ tidy Adventure.silence
        exact ⟨last, played, arrived.view.symm⟩

/-- A game of the two rooms that waits at the first of them. -/
theorem exists_waits_twoRooms :
    ∃ image hall game, World.twoRooms.compile = .ok image ∧ image.length ≤ Image.maxBytes ∧
      World.twoRooms.place? "hall" = some hall ∧ hall ∈ World.twoRooms.places ∧
      World.Waits World.twoRooms image hall game := by
  obtain ⟨image, compiled, fits⟩ := World.twoRooms_compiles
  obtain ⟨words, decoded, installed⟩ := World.installed_of_compile compiled fits
  have formed := World.wellFormed_twoRooms
  have playable := World.playable_of_check (World.compile_ok compiled).1 formed.narrow
    formed.exitsNamed
  obtain ⟨_, hall, game, _, found, _, waits⟩ :=
    World.waits_opening installed decoded playable formed.intro formed.places false
  exact ⟨image, hall, game, compiled, fits, found, (World.place?_mem found).1, waits⟩

/-- From the hall, the exit to the north tells that one goes out. -/
theorem find_has_trail_twoRooms :
    let query : Query := { accept := printsText "go out" }
    let hall : Room := ⟨"Hall", "A hall.", ["orb"], ["north"]⟩
    ∃ game report find, (run query game hall).value = .ok report ∧ report.found = some find ∧
      find.path = ["north"] ∧ ∃ event rooms last,
        Trail query event find.game game hall ["north"] rooms ∧
        event.toResponse = find.response ∧
        (Adventure.commands Machine.unlimited game Adventure.silence ["north"]).value =
          (.ok event, last) ∧
        last.view = find.game.view := by
  intro query hall
  obtain ⟨image, place, game, compiled, fits, found, member, waits⟩ := exists_waits_twoRooms
  obtain ⟨words, decoded, installed⟩ := World.installed_of_compile compiled fits
  have formed := World.wellFormed_twoRooms
  have playable := World.playable_of_check (World.compile_ok compiled).1 formed.narrow
    formed.exitsNamed
  have known : ((World.twoRooms.place? "hall").bind fun here => here.exits.head?.bind fun exit =>
      (World.twoRooms.respond here (Text.heard exit.name)).map fun answer =>
        (exit.name, answer.response)) =
      some ("north", ⟨"You go out.\n", some ⟨"Yard", "A yard.", [], ["south"]⟩⟩) := by
    decide +kernel
  rw [found, Option.bind_some] at known
  obtain ⟨exit, first, replied⟩ := Option.bind_eq_some_iff.mp known
  obtain ⟨answer, said, told⟩ := Option.map_eq_some_iff.mp replied
  obtain ⟨named, response⟩ := Prod.mk.inj told
  have listed := List.mem_of_head? first
  obtain ⟨fork, tried, _⟩ := World.waits_attempt_exit installed decoded playable waits member listed
    ((formed.places place member).exits exit listed) said (formed.legible_respond member said).1
  rw [named] at tried
  have accepted : query.accept answer.response = true := by
    rw [response]
    decide
  have searched : (run query game hall).value =
      .ok ⟨[⟨"", some hall⟩, answer.response], some ⟨fork, answer.response, ["north"]⟩⟩ := by
    have deep : deepest = (deepest - 1) + 1 := by decide
    have budget : Machine.budgetOf query.limit = Machine.unlimited := rfl
    have event : answer.event.toResponse = answer.response := rfl
    rw [value_run, if_neg (by decide), deep, explore, ending_tryExits_cons, if_neg (by decide),
      budget, tried]
    simp only [Except.bind, Except.map, event, accepted, ↓reduceIte]
    rfl
  refine ⟨game, _, _, searched, rfl, rfl, ?_⟩
  rcases find_has_trail searched rfl with ⟨empty, _⟩ | ⟨_, event, rooms, trail, told, _, replays⟩
  · cases empty
  · obtain ⟨last, played, shown⟩ := replays waits.tidy
    exact ⟨event, rooms, last, trail, told, played, shown⟩

end RoomSearch

end AdventureMachine
