import AdventureMachine.Objects
import AdventureMachine.Proofs.Fork

/-! What a game owns in a store. A game lies in objects that are pairwise different; a move writes
over them and may put grown storage elsewhere, and a game that is created lies behind everything
that was there before. All other places stay as they are. -/
namespace AdventureMachine.Objects

variable {store after : Store} {layout : Layout} {game next : Adventure}

theorem kept_append {α : Type} {front : List α} {index : Nat} {value : α}
    (kept : front[index]? = some value) (more : List α) :
    (front ++ more)[index]? = some value := by
  rw [List.getElem?_append_left (List.getElem?_eq_some_iff.mp kept).1, kept]

theorem getElem?_created (store more : Store) (index : Nat) :
    (store ++ more)[store.length + index]? = more[index]? := by
  rw [List.getElem?_append_right (Nat.le_add_right _ _), Nat.add_sub_cancel_left]

theorem Piece.all_rank (piece : Piece) : all[piece.rank]? = some piece := by
  cases piece <;> rfl

theorem Piece.mem_all (piece : Piece) : piece ∈ all := List.mem_of_getElem? piece.all_rank

theorem Piece.rank_injective : Function.Injective rank := by
  intro one other same
  have found := one.all_rank
  rw [same, other.all_rank] at found
  exact (Option.some.inj found).symm

/-- The game lies in the store as laid out, every piece in an object of its own. -/
structure Holds (store : Store) (layout : Layout) (game : Adventure) : Prop where
  separate : Function.Injective layout.place
  options : store[layout.options]? = some (.options game.tracing)
  kept : ∀ piece, store[layout.place piece]? = some (layout.object game piece)

theorem buffer?_eq (buffer : ByteBuffer) : buffer? buffer.storage buffer.used = some buffer :=
  dif_pos ⟨buffer.used_le, buffer.nonempty⟩

theorem Holds.layout?_eq (holds : Holds store layout game) :
    layout? store (layout.place .machine) = some layout := by
  simp only [layout?, holds.kept, Layout.object, Option.bind_eq_bind, Option.bind_some]
  refine congrArg some ?_
  rw [Layout.mk.injEq]
  refine ⟨funext fun piece => ?_, rfl⟩
  cases piece <;> rfl

theorem Holds.layout_game?_eq (holds : Holds store layout game) :
    layout.game? store = some game := by
  simp only [Layout.game?, holds.kept, holds.options, Layout.object, buffer?_eq,
    Option.bind_eq_bind, Option.bind_some]
  rfl

theorem Holds.game?_eq (holds : Holds store layout game) :
    game? store (layout.place .machine) = some game := by
  rw [game?, holds.layout?_eq, Option.bind_eq_bind, Option.bind_some, holds.layout_game?_eq]

theorem Holds.load_run (holds : Holds store layout game) :
    (load (layout.place .machine)).run store = some ((layout, game), store) := by
  simp only [load, StateT.run, holds.layout?_eq, holds.layout_game?_eq, Option.bind_eq_bind,
    Option.bind_some]
  rfl

theorem Holds.append (holds : Holds store layout game) (more : List Object) :
    Holds (store ++ more) layout game where
  separate := holds.separate
  options := kept_append holds.options more
  kept piece := kept_append (holds.kept piece) more

/-- The layout of pieces that are created one after another. -/
def Layout.inOrder (first options : Ref) : Layout := ⟨fun piece => first + piece.rank, options⟩

theorem fetch_run {ref : Ref} {object : Object} (kept : store[ref]? = some object) :
    (fetch ref).run store = some (object, store) := by
  simp only [fetch, StateT.run, kept, Option.map_some]

theorem allocate_run (object : Object) :
    (allocate object).run store = some (store.length, store ++ [object]) := rfl

theorem duplicate_run {ref : Ref} {object : Object} (kept : store[ref]? = some object) :
    (duplicate ref).run store = some (store.length, store ++ [object]) := by
  rw [duplicate, StateT.run_bind, fetch_run kept, Option.bind_eq_bind, Option.bind_some,
    allocate_run]

theorem transport_run (buffer : ByteBuffer) (cursor : Int) :
    (transport buffer cursor).run store =
      some (store.length + 2, store ++
        [.storage buffer.storage, .buffer store.length buffer.used,
          .transport (store.length + 1) cursor]) := by
  simp only [transport, StateT.run_bind, allocate_run, Option.bind_eq_bind, Option.bind_some,
    List.length_append, List.length_singleton, List.append_assoc, List.cons_append, List.nil_append]

theorem construct_run {registers memory stack : Ref} {first second third : Object}
    (input output options : Ref) (pc : Number) (kept : store[registers]? = some first)
    (kept' : store[memory]? = some second) (kept'' : store[stack]? = some third) :
    (construct input output options registers memory stack pc).run store =
      some (store.length + 4, store ++
        [first, second, third, .state store.length (store.length + 1) (store.length + 2) pc,
          .machine (store.length + 3) input output options 0 none]) := by
  simp only [construct, StateT.run_bind, allocate_run, duplicate_run kept, Option.bind_eq_bind,
    duplicate_run (kept_append kept' _), List.append_assoc, duplicate_run (kept_append kept'' _),
    Option.bind_some, List.length_append, List.length_cons, List.length_nil, List.cons_append,
    List.nil_append]

theorem Holds.clone_run (holds : Holds store layout game) (input output : Ref) :
    (clone (layout.place .machine) input output).run store =
      some (store.length + 4, store ++
        [.registers game.registers, .memory game.memory, .stack game.stack,
          .state store.length (store.length + 1) (store.length + 2) game.pc,
          .machine (store.length + 3) input output layout.options game.steps game.lastHalt]) := by
  have constructed := construct_run input output layout.options game.pc (holds.kept .registers)
    (holds.kept .memory) (holds.kept .stack)
  simp only [Layout.object] at constructed
  have last := getElem?_created store [.registers game.registers, .memory game.memory,
    .stack game.stack, .state store.length (store.length + 1) (store.length + 2) game.pc,
    .machine (store.length + 3) input output layout.options 0 none] 4
  simp only [clone, StateT.run_bind, fetch_run (holds.kept .machine), Layout.object,
    fetch_run (holds.kept .state), Option.bind_eq_bind, Option.bind_some, constructed,
    fetch_run last]
  simp

/-- A game that was created behind everything that the store held before. -/
structure Created (store after : Store) (layout : Layout) (game : Adventure) : Prop where
  holds : Holds after layout game
  fresh : ∀ piece, store.length ≤ layout.place piece
  grown : store <+: after

theorem created_inOrder (store : Store) {options : Ref} (game : Adventure)
    (found : store[options]? = some (.options game.tracing)) :
    Created store (store ++ Piece.all.map ((Layout.inOrder store.length options).object game))
      (.inOrder store.length options) game where
  holds := {
    separate := fun _ _ same => Piece.rank_injective (Nat.add_left_cancel same)
    options := kept_append found _
    kept := fun piece => by
      rw [Layout.inOrder, getElem?_created, List.getElem?_map, piece.all_rank]
      rfl }
  fresh _ := Nat.le_add_right _ _
  grown := List.prefix_append _ _

theorem Holds.cloneOnto_run (holds : Holds store layout game) (source : BufferedInput)
    (sink : BufferedOutput) :
    ∃ fresh after, (cloneOnto (layout.place .machine) source sink).run store =
        some (fresh.place .machine, after) ∧
      Created store after fresh (game.rewire source sink) := by
  refine ⟨.inOrder store.length layout.options, _, ?_, created_inOrder store _ holds.options⟩
  simp only [cloneOnto, StateT.run_bind, transport_run, Option.bind_eq_bind, Option.bind_some,
    List.append_assoc, (holds.append _).clone_run]
  simp [Piece.all, Layout.object, Layout.inOrder, Piece.rank, Machine.rewire]

theorem Holds.fork_run (holds : Holds store layout game) :
    ∃ fresh after, (fork (layout.place .machine)).run store =
        some (fresh.place .machine, after) ∧ Created store after fresh game.fork := by
  rw [fork, StateT.run_bind, holds.load_run, Option.bind_eq_bind, Option.bind_some]
  exact holds.cloneOnto_run _ _

theorem build_run (store : Store) (start : game.steps = 0) (running : game.lastHalt = none) :
    ∃ fresh after, (build game).run store = some (fresh.place .machine, after) ∧
      Created store after fresh game := by
  have created := created_inOrder (store ++ [.options game.tracing, .registers game.registers,
    .memory game.memory, .stack game.stack]) game (getElem?_created store _ 0)
  have grown := (List.prefix_append store _).trans created.grown
  refine ⟨_, _, ?_, created.holds, fun piece => ?_, grown⟩
  · simp only [build, StateT.run_bind, allocate_run, transport_run, Option.bind_eq_bind,
      Option.bind_some, List.append_assoc, List.length_append, List.length_cons, List.length_nil,
      List.cons_append, List.nil_append]
    rw [construct_run _ _ _ _ (getElem?_created store _ 1) (getElem?_created store _ 2)
      (getElem?_created store _ 3)]
    simp [Piece.all, Layout.object, Layout.inOrder, Piece.rank, start, running]
  · exact Nat.le_trans (List.prefix_append _ _).length_le (created.fresh piece)

/-- A layout whose pieces lie in the store, each in an object of its own. -/
structure Layout.Fits (layout : Layout) (store : Store) : Prop where
  separate : Function.Injective layout.place
  inside : ∀ piece, layout.place piece < store.length

theorem Holds.fits (holds : Holds store layout game) : layout.Fits store where
  separate := holds.separate
  inside piece := (List.getElem?_eq_some_iff.mp (holds.kept piece)).1

namespace Layout

/-- The same machine and options, with some pieces in new objects. -/
structure Moved (store after : Store) (layout moved : Layout) : Prop where
  fits : moved.Fits after
  grown : store <+: after
  origin : ∀ piece, moved.place piece = layout.place piece ∨ store.length ≤ moved.place piece
  machine : moved.place .machine = layout.place .machine
  options : moved.options = layout.options

theorem Fits.moved_self (fits : layout.Fits store) : Moved store store layout layout :=
  ⟨fits, List.prefix_rfl, fun _ => .inl rfl, rfl, rfl⟩

theorem Moved.trans {middle : Store} {between moved : Layout}
    (first : Moved store middle layout between) (second : Moved middle after between moved) :
    Moved store after layout moved where
  fits := second.fits
  grown := first.grown.trans second.grown
  origin piece := by
    rcases second.origin piece with same | fresh
    · rw [same]
      exact first.origin piece
    · exact .inr (Nat.le_trans first.grown.length_le fresh)
  machine := second.machine.trans first.machine
  options := second.options.trans first.options

theorem Fits.relocate (fits : layout.Fits store) {piece : Piece} (other : piece ≠ .machine)
    (object : Object) :
    Moved store (store ++ [object]) layout (layout.relocate piece store.length) where
  fits := {
    separate := fun one another same => by
      simp only [Layout.relocate] at same
      split at same <;> split at same
      · simp_all only
      · exact absurd same.symm (Nat.ne_of_lt (fits.inside another))
      · exact absurd same (Nat.ne_of_lt (fits.inside one))
      · exact fits.separate same
    inside := fun one => by
      rw [List.length_append]
      simp only [Layout.relocate]
      split
      · exact Nat.lt_succ_self _
      · exact Nat.lt_succ_of_lt (fits.inside one) }
  grown := List.prefix_append _ _
  origin one := by
    simp only [Layout.relocate]
    split
    · exact .inr (Nat.le_refl _)
    · exact .inl rfl
  machine := if_neg other.symm
  options := rfl

theorem Fits.rehouse_run (fits : layout.Fits store) (piece : Piece) (other : piece ≠ .machine)
    (before now : Array UInt8) :
    ∃ moved after, (layout.rehouse piece before now).run store = some (moved, after) ∧
      Moved store after layout moved := by
  unfold rehouse
  split
  · exact ⟨layout, store, rfl, fits.moved_self⟩
  · exact ⟨_, _, rfl, fits.relocate other (.storage now)⟩

/-- Writing some pieces leaves every other place as it was. -/
theorem foldl_set_other {ref : Ref} (object : Piece → Object) {pieces : List Piece}
    (foreign : ∀ piece ∈ pieces, layout.place piece ≠ ref) :
    (pieces.foldl (fun store piece => store.set (layout.place piece) (object piece))
      store)[ref]? = store[ref]? := by
  induction pieces generalizing store with
  | nil => rfl
  | cons piece rest ih =>
    obtain ⟨first, others⟩ := List.forall_mem_cons.mp foreign
    rw [List.foldl_cons, ih others, List.getElem?_set_ne first]

theorem Fits.foldl_set (fits : layout.Fits store) (object : Piece → Object) {pieces : List Piece}
    {piece : Piece} (member : piece ∈ pieces) :
    (pieces.foldl (fun store piece => store.set (layout.place piece) (object piece))
      store)[layout.place piece]? = some (object piece) := by
  induction pieces generalizing store with
  | nil => cases member
  | cons first rest ih =>
    have still : layout.Fits (store.set (layout.place first) (object first)) :=
      ⟨fits.separate, by simpa using fits.inside⟩
    rw [List.foldl_cons]
    by_cases later : piece ∈ rest
    · exact ih still later
    · obtain rfl : piece = first := (List.mem_cons.mp member).resolve_right later
      rw [foldl_set_other object, List.getElem?_set_self (fits.inside piece)]
      rintro other present same
      exact later (fits.separate same ▸ present)

end Layout

/-- No piece lies where options lie. -/
theorem Holds.place_ne_options (holds : Holds store layout game) {options : Ref} {tracing : Bool}
    (found : store[options]? = some (.options tracing)) (piece : Piece) :
    layout.place piece ≠ options := by
  intro same
  have kept := holds.kept piece
  rw [same, found] at kept
  cases piece <;> cases kept

/-- A move wrote the pieces of one game, and some of them may be new objects. -/
structure Updated (store after : Store) (layout moved : Layout) (next : Adventure) : Prop where
  holds : Holds after moved next
  machine : moved.place .machine = layout.place .machine
  origin : ∀ piece, moved.place piece = layout.place piece ∨ store.length ≤ moved.place piece
  elsewhere : ∀ ref < store.length, (∀ piece, layout.place piece ≠ ref) →
    after[ref]? = store[ref]?

theorem Holds.write (holds : Holds store layout game) {middle : Store} {moved : Layout}
    (kept : layout.Moved store middle moved) (same : next.tracing = game.tracing) :
    Updated store (moved.write next middle) layout moved next := by
  obtain ⟨more, rfl⟩ := kept.grown
  have elsewhere : ∀ ref < store.length, (∀ piece, layout.place piece ≠ ref) →
      (moved.write next (store ++ more))[ref]? = store[ref]? := by
    intro ref inside foreign
    rw [Layout.write, Layout.foldl_set_other, List.getElem?_append_left inside]
    intro piece _
    rcases kept.origin piece with old | fresh
    · rw [old]
      exact foreign piece
    · exact Nat.ne_of_gt (Nat.lt_of_lt_of_le inside fresh)
  refine ⟨⟨kept.fits.separate, ?_, fun piece => kept.fits.foldl_set _ piece.mem_all⟩,
    kept.machine, kept.origin, elsewhere⟩
  rw [kept.options, same, elsewhere _ (List.getElem?_eq_some_iff.mp holds.options).1
    (holds.place_ne_options holds.options), holds.options]

theorem Holds.save_run (holds : Holds store layout game) (same : next.tracing = game.tracing) :
    ∃ moved after, (save layout game next).run store = some ((), after) ∧
      Updated store after layout moved next := by
  obtain ⟨between, middle, housed, first⟩ := holds.fits.rehouse_run .inputStorage (by decide)
    game.source.buffer.storage next.source.buffer.storage
  obtain ⟨moved, last, housed', second⟩ := first.fits.rehouse_run .outputStorage
    (by decide) game.sink.buffer.storage next.sink.buffer.storage
  refine ⟨moved, moved.write next last, ?_, holds.write (first.trans second) same⟩
  simp only [save, StateT.run_bind, housed, housed', Option.bind_eq_bind, Option.bind_some]
  rfl

end AdventureMachine.Objects
