import AdventureMachine.Proofs.Ownership

/-! Machines played side by side. Machines that are created from images, snapshots and one another
have no object in common but options, and no move brings them together. So each of them answers as
if it were alone, and a fork answers as the machine that it was taken from. -/
namespace AdventureMachine.Objects

variable {store after : Store} {layout : Layout} {game next : Adventure}

/-- Two games that have no object in common. -/
def Layout.Apart (one other : Layout) : Prop :=
  ∀ piece piece', one.place piece ≠ other.place piece'

theorem Layout.Apart.symm {one other : Layout} (apart : one.Apart other) : other.Apart one :=
  fun piece piece' same => apart piece' piece same.symm

/-- A game and where it lies. -/
abbrev Entry := Layout × Adventure

/-- The machine of a game. -/
def Entry.machine (entry : Entry) : Ref := entry.1.place .machine

/-- Games that lie in the store side by side. -/
structure Stands (store : Store) (entries : List Entry) : Prop where
  holds : ∀ {index : Nat} {entry : Entry}, entries[index]? = some entry →
    Holds store entry.1 entry.2
  apart : ∀ {index index' : Nat} {one other : Entry}, entries[index]? = some one →
    entries[index']? = some other → index ≠ index' → one.1.Apart other.1

theorem stands_nil : Stands [] [] where
  holds found := nomatch found
  apart found := nomatch found

variable {entries : List Entry} {index : Nat}

theorem concat_cases {last entry : Entry} (found : (entries ++ [last])[index]? = some entry) :
    entries[index]? = some entry ∨ index = entries.length ∧ entry = last := by
  rcases Nat.lt_or_ge index entries.length with inside | beyond
  · rw [List.getElem?_append_left inside] at found
    exact .inl found
  · rw [List.getElem?_append_right beyond, List.getElem?_singleton] at found
    split at found
    · exact .inr ⟨by omega, (Option.some.inj found).symm⟩
    · cases found

theorem set_cases {place : Nat} {changed entry : Entry} (inside : index < entries.length)
    (found : (entries.set index changed)[place]? = some entry) :
    index ≠ place ∧ entries[place]? = some entry ∨ index = place ∧ entry = changed := by
  by_cases same : index = place
  · subst same
    rw [List.getElem?_set_self inside] at found
    exact .inr ⟨rfl, (Option.some.inj found).symm⟩
  · rw [List.getElem?_set_ne same] at found
    exact .inl ⟨same, found⟩

/-- A new game disturbs nobody. -/
theorem Stands.create (stands : Stands store entries) (created : Created store after layout game) :
    Stands after (entries ++ [(layout, game)]) := by
  obtain ⟨more, rfl⟩ := created.grown
  have distinct : ∀ {index : Nat} {entry : Entry}, entries[index]? = some entry →
      entry.1.Apart layout := fun found piece piece' =>
    Nat.ne_of_lt (Nat.lt_of_lt_of_le ((stands.holds found).fits.inside piece)
      (created.fresh piece'))
  constructor
  · intro index entry found
    rcases concat_cases found with old | ⟨rfl, rfl⟩
    · exact (stands.holds old).append more
    · exact created.holds
  · intro index index' one other found found' different
    rcases concat_cases found with old | ⟨rfl, rfl⟩ <;>
      rcases concat_cases found' with old' | ⟨rfl, rfl⟩
    · exact stands.apart old old' different
    · exact distinct old
    · exact (distinct old').symm
    · exact absurd rfl different

/-- A move of one game disturbs no other. -/
theorem Stands.update (stands : Stands store entries) {moved : Layout}
    (present : entries[index]? = some (layout, game))
    (updated : Updated store after layout moved next) :
    Stands after (entries.set index (moved, next)) := by
  have inside := (List.getElem?_eq_some_iff.mp present).1
  have mine := stands.holds present
  have distinct : ∀ {place : Nat} {entry : Entry}, entries[place]? = some entry →
      index ≠ place → moved.Apart entry.1 := by
    intro place entry found different piece piece'
    rcases updated.origin piece with old | fresh
    · rw [old]
      exact stands.apart present found different piece piece'
    · exact Nat.ne_of_gt (Nat.lt_of_lt_of_le ((stands.holds found).fits.inside piece') fresh)
  constructor
  · intro place entry found
    rcases set_cases inside found with ⟨different, old⟩ | ⟨rfl, rfl⟩
    · have theirs := stands.holds old
      refine ⟨theirs.separate, ?_, fun piece => ?_⟩
      · rw [updated.elsewhere _ (List.getElem?_eq_some_iff.mp theirs.options).1
          (mine.place_ne_options theirs.options), theirs.options]
      · rw [updated.elsewhere _ (theirs.fits.inside piece)
          fun piece' => stands.apart present old different piece' piece, theirs.kept]
    · exact updated.holds
  · intro place place' one other found found' different
    rcases set_cases inside found with ⟨apart, old⟩ | ⟨rfl, rfl⟩ <;>
      rcases set_cases inside found' with ⟨apart', old'⟩ | ⟨rfl, rfl⟩
    · exact stands.apart old old' different
    · exact (distinct old apart).symm
    · exact distinct old' apart'
    · exact absurd rfl different

/-- Plays a move on the game of a machine, in place. -/
def act (machine : Ref) (move : Move) : Work Reply := do
  let (layout, game) ← load machine
  let (reply, next) := game.play move
  save layout game next
  return reply

/-- Answers a copy with its game. -/
def copied (copy : Ref) : Work (Reply × List Ref) := do
  let (_, game) ← load copy
  return (.copied game, [copy])

/-- The answer of a machine to a move, and the machine that comes into being with it. -/
def perform (machine : Ref) : Move → Work (Reply × List Ref)
  | .fork => do copied (← fork machine)
  | .clone source sink => do copied (← cloneOnto machine source sink)
  | move => do return (← act machine move, [])

/-- Machines played side by side. Each move goes to the machine that it names, and copies join at
the end. The answers come with the machine that gave them. -/
def playAll (machines : List Ref) : List (Nat × Move) → Work (List (Nat × Reply) × List Ref)
  | [] => return ([], machines)
  | (index, move) :: rest =>
    match machines[index]? with
    | none => playAll machines rest
    | some machine => do
      let (reply, copies) ← perform machine move
      let (replies, last) ← playAll (machines ++ copies) rest
      return ((index, reply) :: replies, last)

theorem Holds.act_run (holds : Holds store layout game) (move : Move) :
    ∃ moved after, (act (layout.place .machine) move).run store =
        some ((game.play move).1, after) ∧
      Updated store after layout moved (game.play move).2 := by
  obtain ⟨moved, after, saved, updated⟩ := holds.save_run (game.tracing_play move)
  refine ⟨moved, after, ?_, updated⟩
  simp only [act, StateT.run_bind, holds.load_run, Option.bind_eq_bind, Option.bind_some, saved]
  rfl

theorem Holds.copied_run (holds : Holds store layout game) :
    (copied (layout.place .machine)).run store =
      some ((.copied game, [layout.place .machine]), store) := by
  rw [copied, StateT.run_bind, holds.load_run]
  rfl

/-- A machine answers a move as its game does alone, and the games stand side by side again, copies
included. -/
def Answers (store : Store) (entries : List Entry) (index : Nat) (entry : Entry) (move : Move) :
    Prop :=
  ∃ (moved : Layout) (added : List Entry) (after : Store),
    (perform entry.machine move).run store =
      some (((entry.2.play move).1, added.map Entry.machine), after) ∧
    moved.place .machine = entry.machine ∧
    added.map Prod.snd = (entry.2.play move).1.copies ∧
    Stands after (entries.set index (moved, (entry.2.play move).2) ++ added)

theorem Stands.answers_quiet (stands : Stands store entries)
    (present : entries[index]? = some (layout, game)) {move : Move}
    (quiet : (game.play move).1.copies = [])
    (acts : perform (layout.place .machine) move =
      (do return (← act (layout.place .machine) move, []))) :
    Answers store entries index (layout, game) move := by
  obtain ⟨moved, after, acted, updated⟩ := (stands.holds present).act_run move
  refine ⟨moved, [], after, ?_, updated.machine, quiet.symm, ?_⟩
  · rw [Entry.machine, acts, StateT.run_bind, acted]
    rfl
  · rw [List.append_nil]
    exact stands.update present updated

theorem Stands.answers_copy (stands : Stands store entries)
    (present : entries[index]? = some (layout, game)) {move : Move} {fresh : Layout}
    {copy : Adventure} (plays : game.play move = (.copied copy, game)) {create : Work Ref}
    (acts : perform (layout.place .machine) move = (do copied (← create)))
    (creates : create.run store = some (fresh.place .machine, after))
    (created : Created store after fresh copy) :
    Answers store entries index (layout, game) move := by
  refine ⟨layout, [(fresh, copy)], after, ?_, rfl, ?_, ?_⟩
  · rw [Entry.machine, acts, StateT.run_bind, creates, Option.bind_eq_bind, Option.bind_some,
      created.holds.copied_run, plays]
    rfl
  · rw [plays]
    rfl
  · obtain ⟨inside, entry⟩ := List.getElem?_eq_some_iff.mp present
    rw [plays, ← entry, List.set_getElem_self]
    exact stands.create created

theorem Stands.answers (stands : Stands store entries)
    (present : entries[index]? = some (layout, game)) (move : Move) :
    Answers store entries index (layout, game) move := by
  cases move with
  | fork =>
    obtain ⟨fresh, after, forked, created⟩ := (stands.holds present).fork_run
    exact stands.answers_copy present rfl rfl forked created
  | clone source sink =>
    obtain ⟨fresh, after, cloned, created⟩ := (stands.holds present).cloneOnto_run source sink
    exact stands.answers_copy present rfl rfl cloned created
  | setRegister register value =>
    refine stands.answers_quiet present ?_ rfl
    cases answer : game.setRegister register value <;>
      simp only [Adventure.play, answer, Reply.copies]
  | send | step | run | takeResponse | consume | readNew | unread | save =>
    exact stands.answers_quiet present rfl rfl

/-- Machines played side by side answer as their games do, and so they stand in the end. -/
theorem Stands.playAll (stands : Stands store entries) (moves : List (Nat × Move)) :
    ∃ (all : List Entry) (after : Store),
      (Objects.playAll (entries.map Entry.machine) moves).run store =
        some (((Adventure.playAll (entries.map Prod.snd) moves).1, all.map Entry.machine), after) ∧
      all.map Prod.snd = (Adventure.playAll (entries.map Prod.snd) moves).2 ∧
      Stands after all ∧ entries.map Entry.machine <+: all.map Entry.machine := by
  induction moves generalizing store entries with
  | nil => exact ⟨entries, store, rfl, rfl, stands, List.prefix_rfl⟩
  | cons entry rest ih =>
    obtain ⟨index, move⟩ := entry
    rcases found : entries[index]? with _ | ⟨layout, game⟩
    · simp only [Objects.playAll, Adventure.playAll, List.getElem?_map, found, Option.map_none]
      exact ih stands
    · obtain ⟨moved, added, after, performed, same, copies, next⟩ := stands.answers found move
      obtain ⟨inside, here⟩ := List.getElem?_eq_some_iff.mp found
      have machines : (entries.set index (moved, (game.play move).2) ++ added).map Entry.machine =
          entries.map Entry.machine ++ added.map Entry.machine := by
        have unmoved : Entry.machine (moved, (game.play move).2) = entries[index].machine := by
          rw [here]
          exact same
        rw [List.map_append, List.map_set, unmoved,
          ← List.getElem_map Entry.machine (h := by simpa using inside), List.set_getElem_self]
      have games : (entries.set index (moved, (game.play move).2) ++ added).map Prod.snd =
          (entries.map Prod.snd).set index (game.play move).2 ++ (game.play move).1.copies := by
        rw [List.map_append, List.map_set, copies]
      obtain ⟨all, final, played, lasts, stand, grown⟩ := ih next
      rw [machines, games] at played
      rw [games] at lasts
      rw [machines] at grown
      refine ⟨all, final, ?_, ?_, stand, (List.prefix_append _ _).trans grown⟩
      · simp only [Objects.playAll, Adventure.playAll, List.getElem?_map, found, Option.map_some]
        rw [StateT.run_bind, performed]
        simp only [Option.bind_eq_bind, Option.bind_some, StateT.run_bind, played]
        rfl
      · simp only [Adventure.playAll, List.getElem?_map, found, Option.map_some]
        exact lasts

/-- Each machine gives the answers, and goes on to the game, that its own moves alone lead to. -/
theorem Stands.alone (stands : Stands store entries) (moves : List (Nat × Move)) :
    ∃ replies last final,
      (Objects.playAll (entries.map Entry.machine) moves).run store =
        some ((replies, last), final) ∧
      ∀ {index : Nat} {entry : Entry}, entries[index]? = some entry →
        game? final entry.machine = some (entry.2.replay (own index moves)).2 ∧
          own index replies = (entry.2.replay (own index moves)).1 := by
  obtain ⟨all, final, played, games, stand, more, grown⟩ := stands.playAll moves
  refine ⟨_, _, final, played, fun {index entry} present => ?_⟩
  have start : (entries.map Prod.snd)[index]? = some entry.2 := by
    rw [List.getElem?_map, present, Option.map_some]
  obtain ⟨answers, left⟩ := Adventure.playAll_own start moves
  rw [← games, List.getElem?_map, Option.map_eq_some_iff] at left
  obtain ⟨last, there, shown⟩ := left
  have here : (entries.map Entry.machine)[index]? = some entry.machine := by
    rw [List.getElem?_map, present, Option.map_some]
  have unmoved := kept_append here more
  rw [grown, List.getElem?_map, there, Option.map_some] at unmoved
  rw [← Option.some.inj unmoved, ← shown]
  exact ⟨(stand.holds there).game?_eq, answers⟩

/-- The stores and machines that come about by loading games and playing them side by side. -/
inductive Session : Store → List Ref → Prop where
  | empty : Session [] []
  | load {store after : Store} {machines : List Ref} {game : Adventure} {machine : Ref}
      (earlier : Session store machines) (loaded : game.Loaded)
      (built : (build game).run store = some (machine, after)) :
      Session after (machines ++ [machine])
  | play {store after : Store} {machines last : List Ref} {moves : List (Nat × Move)}
      {replies : List (Nat × Reply)} (earlier : Session store machines)
      (tidy : ∀ entry ∈ moves, entry.2.Tidy)
      (played : (playAll machines moves).run store = some ((replies, last), after)) :
      Session after last

theorem Session.stands {machines : List Ref} (session : Session store machines) :
    ∃ entries, Stands store entries ∧ entries.map Entry.machine = machines ∧
      ∀ game ∈ entries.map Prod.snd, game.Tidy := by
  induction session with
  | empty => exact ⟨[], stands_nil, rfl, fun _ member => absurd member List.not_mem_nil⟩
  | @load store _ _ game _ _ loaded built ih =>
    obtain ⟨entries, stands, rfl, tidy⟩ := ih
    obtain ⟨steps, halt, fine⟩ := loaded.start
    obtain ⟨fresh, after, builds, created⟩ := build_run store steps halt
    obtain ⟨rfl, rfl⟩ := Prod.mk.inj (Option.some.inj (builds.symm.trans built))
    refine ⟨_, stands.create created, List.map_append, ?_⟩
    rw [List.map_append, List.forall_mem_append]
    exact ⟨tidy, fun copy member => List.mem_singleton.mp member ▸ fine⟩
  | play _ moved played ih =>
    obtain ⟨entries, stands, rfl, tidy⟩ := ih
    obtain ⟨all, final, plays, games, stand, _⟩ := stands.playAll _
    obtain ⟨answers, rfl⟩ := Prod.mk.inj (Option.some.inj (plays.symm.trans played))
    obtain ⟨_, rfl⟩ := Prod.mk.inj answers
    exact ⟨all, stand, rfl, games ▸ Adventure.tidy_playAll tidy moved⟩

/-- A machine of a session and its fork are played side by side with all others, with their moves
in any order and with further copies among them. Each of the two answers its moves, and shows
itself behind them, as the game alone would have after those moves only. -/
theorem fork_isolated {machines : List Ref} (session : Session store machines) {machine : Ref}
    (present : machines[index]? = some machine) :
    ∃ game copy forked, game? store machine = some game ∧
      (fork machine).run store = some (copy, forked) ∧
      ∀ moves, ∃ replies last final,
        (playAll (machines ++ [copy]) moves).run forked = some ((replies, last), final) ∧
        ∀ player ∈ [(index, machine), (machines.length, copy)], ∃ left,
          game? final player.2 = some left ∧
          left.view = (game.replay (own player.1 moves)).2.view ∧
          own player.1 replies = (game.replay (own player.1 moves)).1 := by
  obtain ⟨entries, stands, rfl, tidy⟩ := session.stands
  rw [List.getElem?_map, Option.map_eq_some_iff] at present
  obtain ⟨⟨layout, game⟩, found, rfl⟩ := present
  obtain ⟨fresh, forked, forks, created⟩ := (stands.holds found).fork_run
  refine ⟨game, _, forked, (stands.holds found).game?_eq, forks, fun moves => ?_⟩
  obtain ⟨replies, last, final, played, alone⟩ := (stands.create created).alone moves
  rw [List.map_append] at played
  refine ⟨replies, last, final, played, ?_⟩
  -- The copy starts from the same game, up to the storage of its transports.
  have follows {index : Nat} {entry : Entry}
      (present : (entries ++ [(fresh, game.fork)])[index]? = some entry)
      (same : entry.2.Same game) :
      ∃ left, game? final entry.machine = some left ∧
        left.view = (game.replay (own index moves)).2.view ∧
        own index replies = (game.replay (own index moves)).1 := by
    obtain ⟨left, answers⟩ := alone present
    obtain ⟨equal, alike⟩ := same.replay (own index moves)
    exact ⟨_, left, alike.view, answers.trans equal⟩
  rintro player (_ | ⟨_, _ | ⟨_, ⟨⟩⟩⟩)
  · exact follows (kept_append found _) ⟨rfl, rfl, rfl, rfl, rfl, rfl⟩
  · rw [List.length_map]
    have member := List.mem_map_of_mem (f := Prod.snd) (List.mem_of_getElem? found)
    exact follows List.getElem?_concat_length (tidy game member).fork

theorem loaded_lastCall : Adventure.Loaded Machine.lastCall := by
  obtain ⟨bytes, _, restores, _⟩ := State.savable_lastCall.decode_save
  have restored := Machine.ofSnapshot_of_decode (restores List.not_mem_nil)
    (BufferedInput.ofBytes [] 0) (BufferedOutput.ofBytes [] 0) false
  exact .snapshot restored

/-- The fork does not notice that the machine took the `call`. -/
theorem fork_isolated_lastCall :
    ∃ store machine copy forked, Session store [machine] ∧
      game? store machine = some Machine.lastCall ∧
      (fork machine).run store = some (copy, forked) ∧
      ∃ replies last final,
        (playAll [machine, copy] [(0, .step), (1, .unread), (0, .send "look")]).run forked =
          some ((replies, last), final) ∧
        own 1 replies = [.text ""] ∧
        ∃ left, game? final copy = some left ∧ left.view = Adventure.view Machine.lastCall := by
  obtain ⟨steps, halt, _⟩ := loaded_lastCall.start
  obtain ⟨fresh, store, built, created⟩ := build_run [] steps halt
  have session : Session store [fresh.place .machine] := .load .empty loaded_lastCall built
  have shows := created.holds.game?_eq
  have first : [fresh.place .machine][0]? = some (fresh.place .machine) := rfl
  obtain ⟨game, copy, forked, found, forks, isolated⟩ := fork_isolated session first
  obtain rfl : game = Machine.lastCall := Option.some.inj (found.symm.trans shows)
  obtain ⟨replies, last, final, played, alone⟩ :=
    isolated [(0, .step), (1, .unread), (0, .send "look")]
  obtain ⟨left, after, view, answers⟩ := alone (1, copy) (.tail _ (.head _))
  have mine : own 1 [(0, Move.step), (1, .unread), (0, .send "look")] = [.unread] := rfl
  have silent : Machine.lastCall.sink.unread = "" := by
    rw [BufferedOutput.unread_eq]
    rfl
  rw [mine] at view answers
  refine ⟨store, _, copy, forked, session, shows, forks, replies, last, final, played, ?_, left,
    after, view⟩
  rw [answers]
  exact congrArg (fun text => [Reply.text text]) silent

end AdventureMachine.Objects
