import AdventureMachine.Proofs.Conversation
import AdventureMachine.Proofs.Guest

/-! The command matcher of a place. Every stem of a command has its node in memory, found by going
down the tree from its root. Reading a line goes from node to node until the line ends at a command
or no command goes on with it; so the matcher finds what a search through exits and deeds finds. -/
namespace AdventureMachine

open Text (lineFeed)

variable {memory : Memory} {spot : Label → Nat} {start stop : Nat}

theorem Lies.start_le {program : List Directive} (lies : Lies memory spot start program stop) :
    start ≤ stop := by
  rw [lies.stop_eq]
  exact Nat.le_add_right _ _

/-- Code with an instruction in it starts inside memory. -/
theorem Lies.start_lt {program : List Directive} {opcode : Number} {arguments : List Argument}
    (lies : Lies memory spot start program stop)
    (member : Directive.instruction opcode arguments ∈ program) : start < memorySize := by
  induction program generalizing start with
  | nil => cases member
  | cons directive rest ih =>
    cases lies with
    | label _ behind => exact ih behind (by simpa using member)
    | instruction held _ =>
      have bound := held.inside
      rw [List.length_cons] at bound
      omega
    | data _ behind =>
      exact Nat.lt_of_le_of_lt (Nat.le_add_right _ _) (ih behind (by simpa using member))
    | print written behind =>
      exact Nat.lt_of_le_of_lt written.start_le (ih behind (by simpa using member))
    | readLine written behind =>
      exact Nat.lt_of_le_of_lt written.start_le (ih behind (by simpa using member))

namespace World

theorem mem_foldl_iff {α β : Type} {grow : List α → β → List α} {entry : α} (adds : β → Prop)
    (step : ∀ found source, entry ∈ grow found source ↔ entry ∈ found ∨ adds source)
    (sources : List β) (found : List α) :
    entry ∈ sources.foldl grow found ↔ entry ∈ found ∨ ∃ source ∈ sources, adds source := by
  induction sources generalizing found with
  | nil => simp
  | cons source rest ih =>
    rw [List.foldl_cons, ih, step]
    simp only [List.mem_cons, exists_eq_or_imp, or_assoc]

/-- A unit continues a stem exactly when some command goes on with it. -/
theorem mem_continuations {stem : List UInt16} {unit : UInt16} {commands : List (List UInt16)} :
    unit ∈ continuations stem commands ↔ ∃ command ∈ commands, stem ++ [unit] <+: command := by
  rw [continuations]
  refine (mem_foldl_iff (fun command => stem ++ [unit] <+: command) ?_ commands []).trans (by simp)
  intro found command
  by_cases begins : stem <+: command
  · rw [if_pos (List.isPrefixOf_iff_prefix.mpr begins)]
    obtain ⟨rest, rfl⟩ := begins
    rw [List.drop_left, List.prefix_append_right_inj]
    cases rest with
    | nil => simp
    | cons next others =>
      simp only [List.cons_prefix_cons, List.nil_prefix, and_true]
      by_cases listed : next ∈ found
      · rw [if_pos (by simpa using listed)]
        constructor
        · exact .inl
        · rintro (member | rfl)
          · exact member
          · exact listed
      · rw [if_neg (by simpa using listed), List.mem_append, List.mem_singleton]
  · rw [if_neg (fun same => begins (List.isPrefixOf_iff_prefix.mp same))]
    constructor
    · exact .inl
    · rintro (member | longer)
      · exact member
      · exact absurd ((List.prefix_append _ _).trans longer) begins

/-- The commands of a place, as the units that are matched. -/
def Place.commands (place : Place) : List (List UInt16) :=
  place.deeds.map fun deed => Text.units deed.command

/-- The tests of the unit that follows a stem, in their order. -/
def Place.tests (place : Place) (stem : List UInt16) : Tests :=
  (if stem.isEmpty then
    place.exits.zipIdx.map fun (exit, index) =>
      ((exit.initial.headD 0).toNat, exitLabel place.id index)
  else []) ++
  ((place.commands.zipIdx.filter fun (command, _) => !stem.isEmpty && command = stem).map
    fun (_, index) => (newline, deedLabel place.id index)) ++
  (continuations stem place.commands).map fun unit =>
    (unit.toNat, nodeLabel place.id (stem ++ [unit]))

theorem flatMap_ite {α β : Type} (listed : List α) (chosen : α → Bool) (code : α → List β) :
    (listed.flatMap fun entry => if chosen entry then code entry else []) =
      (listed.filter chosen).flatMap code := by
  induction listed with
  | nil => rfl
  | cons entry rest ih =>
    rw [List.flatMap_cons, ih, List.filter_cons]
    split
    · rw [List.flatMap_cons]
    · rfl

/-- A node of the tree, with its tests and the nodes behind them. -/
theorem node_eq (place : Place) (depth : Nat) (stem : List UInt16) :
    node place place.commands (depth + 1) stem =
      .label (nodeLabel place.id stem) :: readNext :: ((place.tests stem).code ++
        .op .jmp [.label (unknownLabel place.id)] ::
          (continuations stem place.commands).flatMap fun unit =>
            node place place.commands depth (stem ++ [unit])) := by
  have exits : (if stem.isEmpty then
        place.exits.zipIdx.map fun (exit, index) =>
          ((exit.initial.headD 0).toNat, exitLabel place.id index)
      else []).flatMap (fun test => whenUnit test.1 test.2) =
      if stem.isEmpty then
        place.exits.zipIdx.flatMap fun (exit, index) =>
          whenUnit (exit.initial.headD 0).toNat (exitLabel place.id index)
      else [] := by
    split
    · rw [List.flatMap_map]
    · rfl
  have deeds := flatMap_ite place.commands.zipIdx
    (fun entry => !stem.isEmpty && decide (entry.1 = stem))
    fun entry => whenUnit newline (deedLabel place.id entry.2)
  simp only [Tests.code, Place.tests, List.flatMap_append, List.flatMap_map, exits]
  simp only [node, List.append_assoc, List.cons_append, List.nil_append]
  rw [deeds]

/-- A line that a command of the place may still go on with. -/
def Place.Stem (place : Place) (stem : List UInt16) : Prop :=
  stem = [] ∨ ∃ command ∈ place.commands, stem <+: command

/-- Going down the tree from a node that lies in memory. -/
theorem lies_node_append {place : Place} {command stem path : List UInt16} {depth : Nat}
    (lies : Lies memory spot start (node place place.commands (depth + 1) stem) stop)
    (listed : command ∈ place.commands) (begins : stem ++ path <+: command)
    (deep : path.length ≤ depth) :
    ∃ depth' start' stop',
      Lies memory spot start' (node place place.commands (depth' + 1) (stem ++ path)) stop' := by
  induction path generalizing stem depth start stop with
  | nil => exact ⟨depth, start, stop, by rwa [List.append_nil]⟩
  | cons unit rest ih =>
    obtain ⟨depth, rfl⟩ : ∃ less, depth = less + 1 := ⟨depth - 1, by
      rw [List.length_cons] at deep
      omega⟩
    rw [List.append_cons] at begins ⊢
    have next : unit ∈ continuations stem place.commands :=
      mem_continuations.mpr ⟨command, listed, (List.prefix_append _ rest).trans begins⟩
    rw [node_eq] at lies
    obtain ⟨middle, _, jump⟩ := lies.labelled.2.op.2.split
    obtain ⟨first, last, child⟩ := jump.op.2.of_mem_flatMap next
    exact ih child begins (Nat.le_of_succ_le_succ deep)

theorem le_foldl_max (values : List Nat) (least : Nat) :
    least ≤ values.foldl max least ∧ ∀ value ∈ values, value ≤ values.foldl max least := by
  induction values generalizing least with
  | nil => simp
  | cons first rest ih =>
    obtain ⟨low, high⟩ := ih (max least first)
    rw [List.foldl_cons]
    refine ⟨by omega, List.forall_mem_cons.mpr ⟨by omega, high⟩⟩

/-- How long the commands of a place are at most. -/
def Place.longest (place : Place) : Nat := (place.commands.map List.length).foldl max 0

theorem Place.length_le_longest {place : Place} {command : List UInt16}
    (listed : command ∈ place.commands) : command.length ≤ place.longest :=
  (le_foldl_max _ 0).2 _ (List.mem_map_of_mem listed)

theorem dispatch_eq (place : Place) :
    dispatch place = World.node place place.commands (place.longest + 1) [] ++
      drainLine (unknownLabel place.id) (roomLabel place.id) := rfl

/-- Where the code of a place lies, part by part. -/
structure Place.Stands (memory : Memory) (spot : Label → Nat) (place : Place) : Prop where
  description : Lies memory spot (spot (roomLabel place.id)) [.print (Text.units place.render)]
    (spot (nodeLabel place.id []))
  node : ∀ stem, place.Stem stem → ∃ rest stop,
    Lies memory spot (spot (nodeLabel place.id stem)) (readNext :: ((place.tests stem).code ++
      .op .jmp [.label (unknownLabel place.id)] :: rest)) stop
  unknown : ∃ stop, Lies memory spot (spot (unknownLabel place.id))
    (drainLine (unknownLabel place.id) (roomLabel place.id)) stop
  exit : ∀ entry ∈ place.exits.zipIdx, ∃ stop,
    Lies memory spot (spot (exitLabel place.id entry.2)) (exitCode place entry.1 entry.2) stop
  deed : ∀ entry ∈ place.deeds.zipIdx, ∃ stop,
    Lies memory spot (spot (deedLabel place.id entry.2)) (deedCode place entry.1 entry.2) stop

theorem lies_node {place : Place} {stem : List UInt16}
    (lies : Lies memory spot start (dispatch place) stop) (grown : place.Stem stem) :
    ∃ rest stop', Lies memory spot (spot (nodeLabel place.id stem))
      (readNext :: ((place.tests stem).code ++
        .op .jmp [.label (unknownLabel place.id)] :: rest)) stop' := by
  rw [dispatch_eq] at lies
  obtain ⟨middle, root, _⟩ := lies.split
  have found : ∃ depth' start' stop',
      Lies memory spot start' (World.node place place.commands (depth' + 1) stem) stop' := by
    rcases grown with rfl | ⟨command, listed, begins⟩
    · exact ⟨place.longest, start, middle, root⟩
    · have deep := Nat.le_trans begins.length_le (Place.length_le_longest listed)
      have walked := lies_node_append root listed (by rwa [List.nil_append]) deep
      rwa [List.nil_append] at walked
  obtain ⟨depth', start', stop', lies⟩ := found
  rw [node_eq] at lies
  obtain ⟨placed, code⟩ := lies.labelled
  exact ⟨_, _, placed ▸ code⟩

theorem stands_of_lies {place : Place} (lies : Lies memory spot start (placeCode place) stop) :
    place.Stands memory spot := by
  rw [placeCode] at lies
  obtain ⟨_, others, deeds⟩ := lies.split
  obtain ⟨_, others, exits⟩ := others.split
  obtain ⟨entry, front, matcher⟩ := others.split
  obtain ⟨room, described⟩ := front.labelled
  have whole := matcher
  rw [dispatch_eq, node_eq] at whole
  have root := whole.labelled.1
  refine ⟨by rw [room, root]; exact described, fun stem grown => lies_node matcher grown,
    ?_, ?_, ?_⟩
  · rw [dispatch_eq] at matcher
    obtain ⟨_, _, drain⟩ := matcher.split
    exact ⟨_, drain.labelled.1 ▸ drain⟩
  · intro part member
    obtain ⟨_, _, code⟩ := exits.of_mem_flatMap member
    exact ⟨_, code.labelled.1 ▸ code⟩
  · intro part member
    obtain ⟨_, _, code⟩ := deeds.of_mem_flatMap member
    exact ⟨_, code.labelled.1 ▸ code⟩

/-- What the matcher of a place relies on: texts are narrow, exits have names, and neither a name
nor a command begins with the end of a line. -/
structure Place.Fit (place : Place) : Prop where
  narrow : place.Narrow
  named : ∀ exit ∈ place.exits, exit.name ≠ "" ∧ exit.name.toList.head? ≠ some '\n'
  worded : ∀ deed ∈ place.deeds, deed.command ≠ "" ∧ '\n' ∉ deed.command.toList

theorem mem_zipIdx_fst {α : Type} {listed : List α} {entry : α × Nat}
    (member : entry ∈ listed.zipIdx) : entry.1 ∈ listed := by
  rw [← List.zipIdx_map_fst 0 listed]
  exact List.mem_map_of_mem member

theorem find?_zipIdx {α : Type} {listed : List α} (wanted : α → Bool) (asked : α × Nat → Bool)
    {start : Nat} (agree : ∀ entry ∈ listed.zipIdx start, asked entry = wanted entry.1) :
    ((listed.zipIdx start).find? asked).map Prod.fst = listed.find? wanted := by
  induction listed generalizing start with
  | nil => rfl
  | cons entry rest ih =>
    rw [List.zipIdx_cons] at agree ⊢
    obtain ⟨first, others⟩ := List.forall_mem_cons.mp agree
    rw [List.find?_cons, List.find?_cons, first]
    cases wanted entry with
    | true => rfl
    | false => exact ih others

theorem find?_toUInt16 (units : List UInt16) (byte : UInt8) :
    units.find? (fun unit => byte.toNat = unit.toNat) =
      if byte.toUInt16 ∈ units then some byte.toUInt16 else none := by
  have same (unit : UInt16) : byte.toNat = unit.toNat ↔ byte.toUInt16 = unit := by
    rw [← UInt16.toNat_inj, UInt8.toNat_toUInt16]
  simp only [same]
  induction units with
  | nil => rfl
  | cons unit rest ih =>
    rw [List.find?_cons, ih]
    by_cases equal : byte.toUInt16 = unit
    · simp [equal]
    · simp [equal]

/-- Where the unit behind a stem leads, if not to the end of an unknown line. -/
def Place.turn (place : Place) (stem : List UInt16) (byte : UInt8) : Option Label :=
  ((place.tests stem).find? fun test => byte.toNat = test.1).map Prod.snd

/-- The exits are tested first, at the beginning of a line only. -/
theorem Place.turn_eq (place : Place) (stem : List UInt16) (byte : UInt8) :
    place.turn stem byte =
      (((if stem.isEmpty then place.exits.zipIdx.find? fun entry =>
            byte.toNat = (entry.1.initial.headD 0).toNat
          else none).map fun entry => exitLabel place.id entry.2).or
        (((place.commands.zipIdx.filter fun entry => !stem.isEmpty && entry.1 = stem).find?
            fun _ => byte.toNat = newline).map fun entry => deedLabel place.id entry.2)).or
        (((continuations stem place.commands).find? fun unit => byte.toNat = unit.toNat).map
          fun unit => nodeLabel place.id (stem ++ [unit])) := by
  rw [Place.turn, Place.tests, List.find?_append, List.find?_append, Option.map_or, Option.map_or]
  congr 1
  · congr 1
    · split
      · rw [List.find?_map, Option.map_map]
        rfl
      · rfl
    · rw [List.find?_map, Option.map_map]
      rfl
  · rw [List.find?_map, Option.map_map]
    rfl

section Matcher

variable {place : Place} (fit : place.Fit)

include fit

/-- An exit is tested for the first character of its name. -/
theorem Place.Fit.initial_iff {exit : Exit} (listed : exit ∈ place.exits) (byte : UInt8) :
    byte.toNat = (exit.initial.headD 0).toNat ↔
      exit.name.toList.head? = some (Text.byteChar byte) := by
  have narrow := fit.narrow.names exit listed
  cases spelled : exit.name.toList with
  | nil => exact absurd (String.toList_eq_nil_iff.mp spelled) (fit.named exit listed).1
  | cons c rest =>
    have small : c.toNat ≤ 0xff := narrow c (by simp [spelled])
    have code : (exit.initial.headD 0).toNat = c.toNat := by
      rw [Exit.initial, narrow.units_eq, spelled]
      exact UInt16.toNat_ofNat_of_lt' (Nat.lt_of_le_of_lt small (by decide))
    rw [code, List.head?_cons, Option.some.injEq, ← Text.toNat_byteChar, eq_comm]
    exact Char.toNat_inj

theorem Place.Fit.continuation_le {stem : List UInt16} {unit : UInt16}
    (next : unit ∈ continuations stem place.commands) :
    unit.toNat ≤ 0xff ∧ unit.toNat ≠ newline := by
  obtain ⟨command, listed, begins⟩ := mem_continuations.mp next
  obtain ⟨deed, member, rfl⟩ := List.mem_map.mp listed
  have narrow := fit.narrow.commands deed member
  have inside : unit ∈ Text.units deed.command := begins.subset (by simp)
  refine ⟨narrow.toNat_le inside, ?_⟩
  intro same
  rw [narrow.units_eq, List.mem_map] at inside
  obtain ⟨c, spelled, rfl⟩ := inside
  have small : c.toNat < UInt16.size := Nat.lt_of_le_of_lt (narrow c spelled) (by decide)
  rw [UInt16.toNat_ofNat_of_lt' small] at same
  have line : c = '\n' := Char.toNat_inj.mp same
  exact (fit.worded deed member).2 (line ▸ spelled)

theorem Place.Fit.tests_le {stem : List UInt16} {test : Nat × Label}
    (member : test ∈ place.tests stem) : test.1 ≤ maxLiteral := by
  rw [Place.tests, List.mem_append, List.mem_append] at member
  rcases member with (member | member) | member
  · split at member
    · obtain ⟨⟨exit, index⟩, listed, rfl⟩ := List.mem_map.mp member
      have narrow := fit.narrow.names exit (mem_zipIdx_fst listed)
      simp only
      cases first : exit.initial with
      | nil => exact Nat.zero_le _
      | cons unit rest =>
        have inside : unit ∈ Text.units exit.name :=
          List.mem_of_mem_take (by rw [← Exit.initial, first]; simp)
        exact Nat.le_trans (narrow.toNat_le inside) (by decide)
    · cases member
  · obtain ⟨entry, _, rfl⟩ := List.mem_map.mp member
    exact (by decide : newline ≤ maxLiteral)
  · obtain ⟨unit, next, rfl⟩ := List.mem_map.mp member
    exact Nat.le_trans (fit.continuation_le next).1 (by decide)

/-- The first unit of a line takes the exit whose name starts with it. -/
theorem Place.Fit.turn_exit {exit : Exit} {byte : UInt8}
    (found : place.exits.find? (fun exit => exit.name.toList.head? == some (Text.byteChar byte)) =
      some exit) :
    ∃ index, (exit, index) ∈ place.exits.zipIdx ∧
      place.turn [] byte = some (exitLabel place.id index) := by
  have agree : ∀ entry ∈ place.exits.zipIdx,
      decide (byte.toNat = (entry.1.initial.headD 0).toNat) =
        (entry.1.name.toList.head? == some (Text.byteChar byte)) := by
    intro entry member
    rw [Bool.eq_iff_iff, decide_eq_true_iff, beq_iff_eq]
    exact fit.initial_iff (mem_zipIdx_fst member) byte
  have search := find?_zipIdx
    (fun exit : Exit => exit.name.toList.head? == some (Text.byteChar byte))
    (fun entry : Exit × Nat => decide (byte.toNat = (entry.1.initial.headD 0).toNat)) agree
  rw [found, Option.map_eq_some_iff] at search
  obtain ⟨⟨_, index⟩, first, rfl⟩ := search
  refine ⟨index, List.mem_of_find?_eq_some first, ?_⟩
  rw [Place.turn_eq, List.isEmpty_nil, if_pos rfl, first]
  rfl

/-- At the end of a line the command that it spells is found. -/
theorem Place.Fit.turn_lineFeed (stem : List UInt16) :
    place.turn stem lineFeed =
      (place.commands.zipIdx.find? fun entry => entry.1 = stem).map fun entry =>
        deedLabel place.id entry.2 := by
  have exits : (if stem.isEmpty then place.exits.zipIdx.find? fun entry =>
      lineFeed.toNat = (entry.1.initial.headD 0).toNat else none) = none := by
    split
    · apply List.find?_eq_none.mpr
      intro entry member same
      have listed := mem_zipIdx_fst member
      have begins := (fit.initial_iff listed lineFeed).mp (of_decide_eq_true same)
      exact (fit.named _ listed).2 (begins.trans (congrArg some Text.byteChar_lineFeed))
    · rfl
  have children : (continuations stem place.commands).find?
      (fun unit => lineFeed.toNat = unit.toNat) = none := by
    apply List.find?_eq_none.mpr
    intro unit next same
    exact (fit.continuation_le next).2 (of_decide_eq_true same).symm
  have deeds : (place.commands.zipIdx.filter fun entry => !stem.isEmpty && entry.1 = stem) =
      place.commands.zipIdx.filter fun entry => entry.1 = stem := by
    apply List.filter_congr
    intro entry member
    cases stem with
    | nil =>
      obtain ⟨deed, listed, spelled⟩ := List.mem_map.mp (mem_zipIdx_fst member)
      have narrow := fit.narrow.commands deed listed
      have worded : entry.1 ≠ [] := by
        rw [← spelled, narrow.units_eq, ne_eq, List.map_eq_nil_iff, String.toList_eq_nil_iff]
        exact (fit.worded deed listed).1
      simp [worded]
    | cons _ _ => simp
  have every : (place.commands.zipIdx.filter fun entry => entry.1 = stem).find?
      (fun _ => lineFeed.toNat = newline) =
      place.commands.zipIdx.find? fun entry => entry.1 = stem := by
    rw [← List.head?_filter, ← List.head?_filter, List.filter_eq_self.mpr]
    intro _ _
    decide
  rw [Place.turn_eq, exits, children, deeds, every]
  simp

/-- Within a line the matcher goes on as long as some command does. -/
theorem Place.Fit.turn_other {stem : List UInt16} {byte : UInt8} (other : byte ≠ lineFeed)
    (closed : stem = [] → ∀ exit ∈ place.exits,
      exit.name.toList.head? ≠ some (Text.byteChar byte)) :
    place.turn stem byte =
      if byte.toUInt16 ∈ continuations stem place.commands then
        some (nodeLabel place.id (stem ++ [byte.toUInt16]))
      else none := by
  have exits : (if stem.isEmpty then place.exits.zipIdx.find? fun entry =>
      byte.toNat = (entry.1.initial.headD 0).toNat else none) = none := by
    split
    · rename_i empty
      apply List.find?_eq_none.mpr
      intro entry member same
      have listed := mem_zipIdx_fst member
      exact closed (List.isEmpty_iff.mp empty) _ listed
        ((fit.initial_iff listed byte).mp (of_decide_eq_true same))
    · rfl
  have deeds : (place.commands.zipIdx.filter fun entry => !stem.isEmpty && entry.1 = stem).find?
      (fun _ => byte.toNat = newline) = none := by
    apply List.find?_eq_none.mpr
    intro _ _ same
    exact other (lineFeed_eq_iff.mp (of_decide_eq_true same))
  rw [Place.turn_eq, exits, deeds, find?_toUInt16]
  split <;> simp

/-- No command goes on behind a unit that continues none. -/
theorem Place.Fit.find?_deeds_of_stray {path rest : Bytes} {byte : UInt8}
    (stray : byte.toUInt16 ∉ continuations (path.map UInt8.toUInt16) place.commands) :
    place.deeds.find? (·.command == Text.decode (path ++ byte :: rest)) = none := by
  apply List.find?_eq_none.mpr
  intro deed listed same
  have spelled := ((fit.narrow.commands deed listed).units_eq_map_iff _).mpr (beq_iff_eq.mp same)
  apply stray
  refine mem_continuations.mpr ⟨_, List.mem_map_of_mem listed, rest.map UInt8.toUInt16, ?_⟩
  rw [spelled, List.map_append, List.map_cons, ← List.append_cons]

end Matcher

namespace Place.Stands

variable {place : Place} (stands : place.Stands memory spot)

include stands

theorem node_inside {stem : List UInt16} (grown : place.Stem stem) :
    spot (nodeLabel place.id stem) < memorySize := by
  obtain ⟨rest, stop, lies⟩ := stands.node stem grown
  exact lies.start_lt (List.mem_cons_self ..)

theorem room_inside : spot (roomLabel place.id) < memorySize :=
  Nat.lt_of_le_of_lt stands.description.start_le (stands.node_inside (.inl rfl))

theorem unknown_inside : spot (unknownLabel place.id) < memorySize := by
  obtain ⟨stop, lies⟩ := stands.unknown
  exact lies.start_lt (.tail _ (.head _))

theorem exit_inside {entry : Exit × Nat} (listed : entry ∈ place.exits.zipIdx) :
    spot (exitLabel place.id entry.2) < memorySize := by
  obtain ⟨stop, lies⟩ := stands.exit entry listed
  exact lies.start_lt (.tail _ (.head _))

theorem passage_inside {entry : Exit × Nat} (listed : entry ∈ place.exits.zipIdx) :
    spot (passageLabel place.id entry.2) < memorySize := by
  obtain ⟨stop, lies⟩ := stands.exit entry listed
  obtain ⟨middle, _, passage⟩ := Lies.split lies
  rw [passage.labelled.1]
  exact passage.start_lt (.tail _ (.tail _ (.head _)))

theorem deed_inside {entry : Deed × Nat} (listed : entry ∈ place.deeds.zipIdx) :
    spot (deedLabel place.id entry.2) < memorySize := by
  obtain ⟨stop, lies⟩ := stands.deed entry listed
  rw [deedCode] at lies
  split at lies
  · exact lies.start_lt (.tail _ (.tail _ (.head _)))
  · exact lies.start_lt (.tail _ (.tail _ (.head _)))

theorem tests_inside {stem : List UInt16} {test : Nat × Label} (member : test ∈ place.tests stem) :
    spot test.2 < memorySize := by
  rw [Place.tests, List.mem_append, List.mem_append] at member
  rcases member with (member | member) | member
  · split at member
    · obtain ⟨entry, listed, rfl⟩ := List.mem_map.mp member
      exact stands.exit_inside listed
    · cases member
  · obtain ⟨entry, listed, rfl⟩ := List.mem_map.mp member
    have spelled := (List.mem_filter.mp listed).1
    rw [Place.commands, List.zipIdx_map, List.mem_map] at spelled
    obtain ⟨deed, source, rfl⟩ := spelled
    exact stands.deed_inside source
  · obtain ⟨unit, next, rfl⟩ := List.mem_map.mp member
    exact stands.node_inside (.inr (mem_continuations.mp next))

variable {unit byte : UInt8} {input output : Bytes} {taken : Int}

/-- Reading one unit at a node. -/
theorem leads_node (fit : place.Fit) {stem : List UInt16} (grown : place.Stem stem) :
    Leads memory ⟨spot (nodeLabel place.id stem), unit, byte :: input, output, taken⟩
      ⟨spot ((place.turn stem byte).getD (unknownLabel place.id)), byte, input, output, taken⟩ := by
  obtain ⟨rest, stop, lies⟩ := stands.node stem grown
  have read : Leads memory ⟨spot (nodeLabel place.id stem), unit, byte :: input, output, taken⟩
      ⟨spot (nodeLabel place.id stem) + 2, byte, input, output, taken⟩ := lies.reads.leads
  obtain ⟨middle, behind, tested⟩ := lies.op.2.leads_tests
    (fun test member => fit.tests_le member) fun test member => stands.tests_inside member
  refine (read.trans tested).trans ?_
  rw [Place.turn]
  cases (place.tests stem).find? fun test => byte.toNat = test.1 with
  | some test => exact .refl _
  | none => exact behind.leads_jump stands.unknown_inside

theorem reads_node {stem : List UInt16} (grown : place.Stem stem) :
    Reads memory (spot (nodeLabel place.id stem)) := by
  obtain ⟨rest, stop, lies⟩ := stands.node stem grown
  exact lies.reads

/-- A line that begins like the name of an exit is dropped on the way to that exit. -/
theorem leads_exit (fit : place.Fit) {exit : Exit} {line more : Bytes} (clean : lineFeed ∉ line)
    (found : place.exits.find? (·.opens (Text.decode line)) = some exit) :
    ∃ index, (exit, index) ∈ place.exits.zipIdx ∧
      Leads memory ⟨spot (nodeLabel place.id []), unit, line ++ lineFeed :: more, output, taken⟩
        ⟨spot (passageLabel place.id index), lineFeed, more, output, taken⟩ := by
  cases line with
  | nil =>
    have opened := List.find?_some found
    rw [Exit.opens_decode_nil] at opened
    cases opened
  | cons byte rest =>
    simp only [Exit.opens_decode_cons] at found
    obtain ⟨index, listed, turn⟩ := fit.turn_exit found
    obtain ⟨stop, lies⟩ := stands.exit _ listed
    obtain ⟨middle, drain, passage⟩ := Lies.split lies
    have node : Leads memory
        ⟨spot (nodeLabel place.id []), unit, byte :: (rest ++ lineFeed :: more), output, taken⟩
        ⟨spot ((place.turn [] byte).getD (unknownLabel place.id)), byte, rest ++ lineFeed :: more,
          output, taken⟩ := stands.leads_node fit (.inl rfl)
    rw [turn, Option.getD_some] at node
    exact ⟨index, listed, node.trans (drain.drain_line (stands.passage_inside listed) clean rfl)⟩

/-- A line that no command spells is dropped and the place described again. -/
theorem leads_unknown {line more : Bytes} (clean : lineFeed ∉ line)
    (stream : unit :: input = line ++ lineFeed :: more) :
    Leads memory ⟨spot (unknownLabel place.id), unit, input, output, taken⟩
      ⟨spot (roomLabel place.id), lineFeed, more, output, taken⟩ := by
  obtain ⟨stop, lies⟩ := stands.unknown
  exact lies.drain_line stands.room_inside clean stream

/-- A line that ends at a node: the deed whose command was read, or none. -/
theorem leads_lineFeed (fit : place.Fit) {path : Bytes}
    (grown : place.Stem (path.map UInt8.toUInt16)) :
    (∀ deed, place.deeds.find? (·.command == Text.decode path) = some deed →
      ∃ index, (deed, index) ∈ place.deeds.zipIdx ∧
        Leads memory ⟨spot (nodeLabel place.id (path.map UInt8.toUInt16)), unit,
            lineFeed :: input, output, taken⟩
          ⟨spot (deedLabel place.id index), lineFeed, input, output, taken⟩) ∧
    (place.deeds.find? (·.command == Text.decode path) = none →
      Leads memory ⟨spot (nodeLabel place.id (path.map UInt8.toUInt16)), unit,
          lineFeed :: input, output, taken⟩
        ⟨spot (roomLabel place.id), lineFeed, input, output, taken⟩) := by
  have node : Leads memory ⟨spot (nodeLabel place.id (path.map UInt8.toUInt16)), unit,
        lineFeed :: input, output, taken⟩
      ⟨spot ((place.turn (path.map UInt8.toUInt16) lineFeed).getD (unknownLabel place.id)),
        lineFeed, input, output, taken⟩ := stands.leads_node fit grown
  have agree : ∀ entry ∈ place.deeds.zipIdx,
      decide (Text.units entry.1.command = path.map UInt8.toUInt16) =
        (entry.1.command == Text.decode path) := by
    intro entry member
    have narrow := fit.narrow.commands _ (mem_zipIdx_fst member)
    rw [Bool.eq_iff_iff, decide_eq_true_iff, beq_iff_eq]
    exact narrow.units_eq_map_iff path
  have search := find?_zipIdx (fun deed : Deed => deed.command == Text.decode path)
    (fun entry : Deed × Nat =>
      decide (Text.units entry.1.command = path.map UInt8.toUInt16)) agree
  rw [fit.turn_lineFeed, Place.commands, List.zipIdx_map, List.find?_map, Option.map_map] at node
  simp only [Function.comp_def, Prod.map_fst, Prod.map_snd, id_eq] at node
  rw [← search]
  cases first : place.deeds.zipIdx.find? fun entry =>
      decide (Text.units entry.1.command = path.map UInt8.toUInt16) with
  | none =>
    rw [first] at node
    refine ⟨nofun, fun _ => node.trans ?_⟩
    exact stands.leads_unknown List.not_mem_nil rfl
  | some entry =>
    rw [first] at node
    refine ⟨?_, nofun⟩
    intro deed found
    obtain rfl : entry.1 = deed := Option.some.inj found
    exact ⟨entry.2, List.mem_of_find?_eq_some first, node⟩

/-- What the matcher makes of the rest of a line when `path` was read of it and no exit is taken:
it finds the deed whose command the line is, or drops the line. -/
theorem leads_deed (fit : place.Fit) (path : Bytes) {line more : Bytes} (clean : lineFeed ∉ line)
    (grown : place.Stem (path.map UInt8.toUInt16))
    (closed : path = [] → ∀ exit ∈ place.exits, exit.opens (Text.decode line) = false) :
    (∀ deed, place.deeds.find? (·.command == Text.decode (path ++ line)) = some deed →
      ∃ index, (deed, index) ∈ place.deeds.zipIdx ∧
        Leads memory ⟨spot (nodeLabel place.id (path.map UInt8.toUInt16)), unit,
            line ++ lineFeed :: more, output, taken⟩
          ⟨spot (deedLabel place.id index), lineFeed, more, output, taken⟩) ∧
    (place.deeds.find? (·.command == Text.decode (path ++ line)) = none →
      Leads memory ⟨spot (nodeLabel place.id (path.map UInt8.toUInt16)), unit,
          line ++ lineFeed :: more, output, taken⟩
        ⟨spot (roomLabel place.id), lineFeed, more, output, taken⟩) := by
  induction line generalizing path unit with
  | nil =>
    rw [List.append_nil]
    exact stands.leads_lineFeed fit grown
  | cons byte rest ih =>
    have other : byte ≠ lineFeed := fun same => clean (by simp [same])
    have tail : lineFeed ∉ rest := fun member => clean (by simp [member])
    have shut : path.map UInt8.toUInt16 = [] → ∀ exit ∈ place.exits,
        exit.name.toList.head? ≠ some (Text.byteChar byte) := by
      intro empty exit listed same
      have unopened := closed (List.map_eq_nil_iff.mp empty) exit listed
      rw [Exit.opens_decode_cons, same] at unopened
      simp at unopened
    have node : Leads memory ⟨spot (nodeLabel place.id (path.map UInt8.toUInt16)), unit,
          byte :: (rest ++ lineFeed :: more), output, taken⟩
        ⟨spot ((place.turn (path.map UInt8.toUInt16) byte).getD (unknownLabel place.id)),
          byte, rest ++ lineFeed :: more, output, taken⟩ := stands.leads_node fit grown
    rw [fit.turn_other other shut] at node
    by_cases next : byte.toUInt16 ∈ continuations (path.map UInt8.toUInt16) place.commands
    · have longer : (path ++ [byte]).map UInt8.toUInt16 =
          path.map UInt8.toUInt16 ++ [byte.toUInt16] := List.map_append
      rw [if_pos next, Option.getD_some, ← longer] at node
      have extended : place.Stem ((path ++ [byte]).map UInt8.toUInt16) := by
        rw [longer]
        exact .inr (mem_continuations.mp next)
      obtain ⟨spelled, unknown⟩ := @ih byte (path ++ [byte]) tail extended (by simp)
      rw [← List.append_cons] at spelled unknown
      refine ⟨?_, fun missing => node.trans (unknown missing)⟩
      intro deed found
      obtain ⟨index, listed, onward⟩ := spelled deed found
      exact ⟨index, listed, node.trans onward⟩
    · rw [if_neg next, Option.getD_none] at node
      rw [fit.find?_deeds_of_stray next]
      exact ⟨nofun, fun _ => node.trans (stands.leads_unknown clean rfl)⟩

/-- Input that does not finish its line is read and nothing is written. -/
theorem stalls_node (fit : place.Fit) {stem : List UInt16} (grown : place.Stem stem)
    (clean : lineFeed ∉ input) :
    Stalls memory ⟨spot (nodeLabel place.id stem), unit, input, output, taken⟩ := by
  induction input generalizing stem unit with
  | nil => exact ⟨_, _, stands.reads_node grown, .refl _⟩
  | cons byte rest ih =>
    have other : byte ≠ lineFeed := fun same => clean (by simp [same])
    have tail : lineFeed ∉ rest := fun member => clean (by simp [member])
    refine Leads.stalls (stands.leads_node fit grown) ?_
    by_cases taken : stem = [] ∧
        (place.exits.find? fun exit => exit.name.toList.head? == some (Text.byteChar byte)).isSome
    · obtain ⟨rfl, present⟩ := taken
      obtain ⟨exit, found⟩ := Option.isSome_iff_exists.mp present
      obtain ⟨index, listed, turn⟩ := fit.turn_exit found
      obtain ⟨stop, lies⟩ := stands.exit _ listed
      obtain ⟨middle, drain, _⟩ := Lies.split lies
      rw [turn]
      exact drain.drain_stalls (stands.passage_inside listed) clean
    · have shut : stem = [] → ∀ exit ∈ place.exits,
          exit.name.toList.head? ≠ some (Text.byteChar byte) := by
        intro empty exit listed same
        exact taken ⟨empty, List.find?_isSome.mpr ⟨exit, listed, beq_iff_eq.mpr same⟩⟩
      rw [fit.turn_other other shut]
      split
      · rename_i next
        exact ih (.inr (mem_continuations.mp next)) tail
      · obtain ⟨stop, lies⟩ := stands.unknown
        exact lies.drain_stalls stands.room_inside clean

end Place.Stands

end World

end AdventureMachine
