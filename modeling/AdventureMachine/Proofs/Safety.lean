import AdventureMachine.Proofs.Compiler
import AdventureMachine.Proofs.ControlFlow

/-! When compiled worlds fault. All operands of the program of a world are registers, labels and
units of its texts. Units are written into the program as they are, so a unit beyond the registers
is an operand that no step can load; there is no other fault, whatever the player types. -/
namespace AdventureMachine.World

/-- The texts of a place. -/
def Place.texts (place : Place) : List String :=
  place.title :: place.description :: place.items ++
    (place.exits.flatMap fun exit => [exit.name, exit.message]) ++
    place.deeds.flatMap fun deed => [deed.command, deed.reply]

/-- The texts of a world. -/
def texts (world : World) : List String := world.intro :: world.places.flatMap Place.texts

/-- The unit is an operand, or occurs in a text of the world. -/
def Lists (world : World) (unit : UInt16) : Prop :=
  unit.toNat ≤ lastOperand ∨ ∃ text ∈ world.texts, unit ∈ Text.units text

theorem lists_newline (world : World) : world.Lists (.ofNat newline) := .inl (by decide)

/-- All units of the text are listed. -/
def Spells (world : World) (text : String) : Prop := ∀ unit ∈ Text.units text, world.Lists unit

variable {world : World}

theorem spells_of_mem {text : String} (member : text ∈ world.texts) : world.Spells text :=
  fun _ inside => .inr ⟨text, member, inside⟩

theorem spells_of_narrow {text : String} (narrow : Text.Narrow text) : world.Spells text :=
  fun _ inside => .inl (Nat.le_trans (narrow.toNat_le inside) (by decide))

theorem spells_append (front back : String) :
    world.Spells (front ++ back) ↔ world.Spells front ∧ world.Spells back := by
  rw [Spells, Text.units_append]
  exact List.forall_mem_append

theorem spells_join {texts : List String} (spelled : ∀ text ∈ texts, world.Spells text) :
    world.Spells (String.join texts) := by
  intro unit member
  rw [Text.units, String.toList_join, List.flatMap_assoc, List.mem_flatMap] at member
  obtain ⟨text, listed, inside⟩ := member
  exact spelled text listed unit inside

theorem spells_renderList {header : String} {entries : List String} (narrow : Text.Narrow header)
    (listed : ∀ entry ∈ entries, world.Spells entry) :
    world.Spells (renderList header entries) := by
  rw [renderList]
  split
  · exact spells_of_narrow Text.narrow_empty
  · have rows : world.Spells (String.join (entries.map fun entry => "- " ++ entry ++ "\n")) := by
      apply spells_join
      intro row member
      obtain ⟨entry, inside, rfl⟩ := List.mem_map.mp member
      simp only [spells_append]
      exact ⟨⟨spells_of_narrow (by decide), listed entry inside⟩, spells_of_narrow (by decide)⟩
    simp only [spells_append]
    exact ⟨⟨⟨spells_of_narrow narrow, spells_of_narrow (by decide)⟩, rows⟩,
      spells_of_narrow (by decide)⟩

section Places

variable {place : Place} (known : place ∈ world.places)

include known

theorem spells_of_mem_place {text : String} (member : text ∈ place.texts) : world.Spells text :=
  spells_of_mem (List.mem_cons_of_mem _ (List.mem_flatMap.mpr ⟨place, known, member⟩))

theorem spells_exit {exit : Exit} (listed : exit ∈ place.exits) :
    world.Spells exit.name ∧ world.Spells exit.message := by
  have told : ∀ text ∈ [exit.name, exit.message], text ∈ place.texts := by
    intro text member
    exact List.mem_append_left _ (List.mem_append_right _
      (List.mem_flatMap.mpr ⟨exit, listed, member⟩))
  exact ⟨spells_of_mem_place known (told _ (by simp)),
    spells_of_mem_place known (told _ (by simp))⟩

theorem spells_deed {deed : Deed} (listed : deed ∈ place.deeds) :
    world.Spells deed.command ∧ world.Spells deed.reply := by
  have told : ∀ text ∈ [deed.command, deed.reply], text ∈ place.texts := by
    intro text member
    exact List.mem_append_right _ (List.mem_flatMap.mpr ⟨deed, listed, member⟩)
  exact ⟨spells_of_mem_place known (told _ (by simp)),
    spells_of_mem_place known (told _ (by simp))⟩

theorem spells_render : world.Spells place.render := by
  have exits : ∀ name ∈ place.exits.map Exit.name, world.Spells name := by
    intro name member
    obtain ⟨exit, inside, rfl⟩ := List.mem_map.mp member
    exact (spells_exit known inside).1
  have items : ∀ item ∈ place.items, world.Spells item := by
    intro item member
    exact spells_of_mem_place known (by simp [Place.texts, member])
  have title : world.Spells place.title := spells_of_mem_place known (by simp [Place.texts])
  have description : world.Spells place.description :=
    spells_of_mem_place known (by simp [Place.texts])
  simp only [Place.render, spells_append]
  exact ⟨⟨⟨⟨⟨⟨⟨spells_of_narrow (by decide), title⟩, spells_of_narrow (by decide)⟩, description⟩,
    spells_of_narrow (by decide)⟩, spells_renderList (by decide) items⟩,
    spells_renderList (narrow_exitsHeader _) exits⟩, spells_of_narrow narrow_prompt⟩

/-- Matchers compare with listed units only. -/
theorem lists_tests {stem : List UInt16} {test : Nat × Label} (member : test ∈ place.tests stem) :
    world.Lists (.ofNat test.1) := by
  rw [Place.tests, List.mem_append, List.mem_append] at member
  rcases member with (exits | deeds) | longer
  · split at exits
    · obtain ⟨⟨exit, index⟩, among, rfl⟩ := List.mem_map.mp exits
      simp only [UInt16.ofNat_toNat, Exit.initial]
      cases spelled : Text.units exit.name with
      | nil => exact .inl (Nat.zero_le _)
      | cons unit rest =>
        exact (spells_exit known (mem_zipIdx_fst among)).1 unit (by simp [spelled])
    · cases exits
  · obtain ⟨⟨command, index⟩, _, rfl⟩ := List.mem_map.mp deeds
    exact world.lists_newline
  · obtain ⟨unit, next, rfl⟩ := List.mem_map.mp longer
    obtain ⟨command, listed, begins⟩ := mem_continuations.mp next
    obtain ⟨deed, among, rfl⟩ := List.mem_map.mp listed
    rw [UInt16.ofNat_toNat]
    exact (spells_deed known among).1 unit (begins.subset (by simp))

end Places

/-- Code made of plain directives with listed units. -/
def Utters (world : World) (code : List Directive) : Prop :=
  ∀ directive ∈ code, directive.Plain world.Lists fun _ => True

theorem utters_append {front back : List Directive} (first : world.Utters front)
    (second : world.Utters back) : world.Utters (front ++ back) :=
  List.forall_mem_append.mpr ⟨first, second⟩

theorem utters_flatMap {α : Type} {parts : List α} {code : α → List Directive}
    (each : ∀ part ∈ parts, world.Utters (code part)) : world.Utters (parts.flatMap code) := by
  intro directive member
  obtain ⟨part, listed, inside⟩ := List.mem_flatMap.mp member
  exact each part listed directive inside

theorem utters_test {value : Nat} (target : Label) (spelled : world.Lists (.ofNat value)) :
    world.Utters (whenUnit value target) :=
  List.forall_mem_cons.mpr ⟨.compare spelled, List.forall_mem_singleton.mpr (.branch trivial)⟩

theorem utters_drain (name target : Label) : world.Utters (drainLine name target) := by
  refine List.forall_mem_cons.mpr
    ⟨.label name, utters_append (utters_test target world.lists_newline) ?_⟩
  exact List.forall_mem_cons.mpr ⟨.read, List.forall_mem_singleton.mpr (.jump trivial)⟩

/-- A text and a jump behind it. -/
theorem utters_text {text : String} (target : Label) (spelled : world.Spells text) :
    world.Utters [.print (Text.units text), .op .jmp [.label target]] :=
  List.forall_mem_cons.mpr ⟨.print spelled, List.forall_mem_singleton.mpr (.jump trivial)⟩

section Places

variable {place : Place} (known : place ∈ world.places)

include known

theorem utters_node (depth : Nat) (stem : List UInt16) :
    world.Utters (node place place.commands depth stem) := by
  induction depth generalizing stem with
  | zero => exact List.forall_mem_nil _
  | succ depth ih =>
    rw [node_eq]
    refine List.forall_mem_cons.mpr ⟨.label _, List.forall_mem_cons.mpr ⟨.read, ?_⟩⟩
    apply utters_append
    · exact utters_flatMap fun test member => utters_test test.2 (lists_tests known member)
    · exact List.forall_mem_cons.mpr ⟨.jump trivial, utters_flatMap fun unit _ => ih _⟩

theorem utters_exit {exit : Exit} (listed : exit ∈ place.exits) (index : Nat) :
    world.Utters (exitCode place exit index) := by
  apply utters_append (utters_drain _ _)
  exact List.forall_mem_cons.mpr ⟨.label _, utters_text _ (spells_exit known listed).2⟩

theorem utters_deed {deed : Deed} (listed : deed ∈ place.deeds) (index : Nat) :
    world.Utters (deedCode place deed index) := by
  have reply : world.Spells (deed.reply ++ "\n\n") :=
    (spells_append _ _).mpr ⟨(spells_deed known listed).2, spells_of_narrow (by decide)⟩
  refine List.forall_mem_cons.mpr ⟨.label _, ?_⟩
  split
  · exact utters_text _ reply
  · exact utters_text _ ((spells_append _ _).mpr ⟨reply, spells_of_narrow narrow_prompt⟩)

theorem utters_place : world.Utters (placeCode place) := by
  have opening : world.Utters [.label (roomLabel place.id), .print (Text.units place.render)] :=
    List.forall_mem_cons.mpr
      ⟨.label _, List.forall_mem_singleton.mpr (.print (spells_render known))⟩
  have matcher : world.Utters (dispatch place) :=
    utters_append (utters_node known _ _) (utters_drain _ _)
  apply utters_append (utters_append (utters_append opening matcher) ?_)
  · exact utters_flatMap fun entry member => utters_deed known (mem_zipIdx_fst member) entry.2
  · exact utters_flatMap fun entry member => utters_exit known (mem_zipIdx_fst member) entry.2

end Places

theorem utters_program (world : World) : world.Utters world.program := by
  apply utters_append (utters_text _ (spells_of_mem List.mem_cons_self))
  exact utters_flatMap fun place known => utters_place known

theorem ends_drain (name target : Label) : Directive.Ends (drainLine name target) := ⟨name, rfl⟩

theorem ends_deed (place : Place) (deed : Deed) (index : Nat) :
    Directive.Ends (deedCode place deed index) := by
  rw [deedCode]
  split
  · exact ⟨_, rfl⟩
  · exact ⟨_, rfl⟩

theorem ends_place (place : Place) : Directive.Ends (placeCode place) := by
  have matcher : Directive.Ends (dispatch place) := (ends_drain _ _).append
  refine .append_flatMap (.append_flatMap matcher.append ?_) ?_
  · exact fun entry _ => ⟨_, rfl⟩
  · exact fun entry _ => ends_deed place entry.1 entry.2

theorem ends_program (world : World) : Directive.Ends world.program :=
  .append_flatMap ⟨_, rfl⟩ fun place _ => ends_place place

theorem exists_loaded {image : Bytes} (fits : image.length ≤ Image.maxBytes)
    (source : BufferedInput) (sink : BufferedOutput) (tracing : Bool) :
    ∃ game, Machine.ofImage image source sink tracing = .ok game := by
  rw [Machine.ofImage, Image.decode, if_neg (Nat.not_lt_of_le fits)]
  exact ⟨_, rfl⟩

section Loaded

variable {image : Bytes} (compiled : world.compile = .ok image) {source : BufferedInput}
  {sink : BufferedOutput} {tracing : Bool} {game : Adventure}
  (loaded : Machine.ofImage image source sink tracing = .ok game)

include compiled loaded

/-- An accepted world that can be loaded is loaded as it was built. -/
theorem loaded_as_built : ∃ words, (Assembly.ofProgram world.program).words = .ok words ∧
    words.length ≤ memorySize ∧
    game = .ofState (.initial (.ofWords words.toArray)) source sink tracing := by
  obtain ⟨_, words, built, rfl⟩ := compile_ok compiled
  obtain ⟨found, decoded, rfl⟩ := Machine.ofImage_ok loaded
  obtain ⟨rfl, fits⟩ := Image.decode_encode_ok decoded
  exact ⟨_, built, fits, rfl⟩

/-- Whatever a loaded world is told, all that can fault is a unit of its texts that is no
operand. -/
theorem fault_of_text (count : Nat) {error : Error}
    (fault : (game.after count).step.2 = .error error) :
    ∃ text ∈ world.texts, ∃ unit ∈ Text.units text,
      lastOperand < unit.toNat ∧ error = .invalidLoad (.ofWord unit) := by
  obtain ⟨words, built, fits, rfl⟩ := loaded_as_built compiled loaded
  obtain ⟨unit, operand | ⟨text, told, inside⟩, wide, same⟩ :=
    Assembly.faults_listed built world.utters_program world.ends_program fits source sink tracing
      count fault
  · exact absurd wide (Nat.not_lt_of_le operand)
  · exact ⟨text, told, unit, inside, wide, same⟩

/-- A unit that is no operand faults once the opening of the world comes to it. -/
theorem faults_of_opening {first : Place} (found : world.place? world.start = some first)
    {unit : UInt16} (told : unit ∈ Text.units (world.intro ++ first.render))
    (wide : lastOperand < unit.toNat) : Machine.Faults game := by
  obtain ⟨words, built, fits, rfl⟩ := loaded_as_built compiled loaded
  obtain ⟨member, named⟩ := place?_mem found
  obtain ⟨middle, opening, places⟩ := Lies.split (Assembly.lies_ofProgram built fits)
  obtain ⟨_, _, code⟩ := places.of_mem_flatMap member
  have room := stands_of_lies code
  have inside := room.room_inside
  have description := room.description
  rw [named] at inside description
  have start : (Assembly.site world.program words world.Lists).Stands
      (.ofState (.initial (.ofWords words.toArray)) source sink tracing) 0 := ⟨rfl, rfl⟩
  -- The intro, the jump to the first place, and its description.
  obtain ⟨_, intro, jump⟩ := opening.printed
  rcases start.written intro with faults | ⟨low, count, reached⟩
  · exact faults
  · have entered := reached.step_jump jump inside
    have there := reached.commit entered
    obtain ⟨_, described, _⟩ := description.printed
    rcases there.written described with faults | ⟨small, _⟩
    · exact faults.of_step.of_after
    · rw [Text.units_append] at told
      have operand := (List.mem_append.mp told).elim (low unit) (small unit)
      exact absurd wide (Nat.not_lt_of_le operand)

end Loaded

/-- A world that is accepted and loaded faults only at a unit of its texts beyond the registers,
whatever input there is. So it never faults while its texts keep below these units. Where the intro
or the first place has such a unit, the world does fault, before it reads anything. -/
theorem faults_at_wide_units {image : Bytes} (compiled : world.compile = .ok image)
    {source : BufferedInput} {sink : BufferedOutput} {tracing : Bool} {game : Adventure}
    (loaded : Machine.ofImage image source sink tracing = .ok game) :
    (∀ count error, (game.after count).step.2 = .error error →
      ∃ text ∈ world.texts, ∃ unit ∈ Text.units text,
        lastOperand < unit.toNat ∧ error = .invalidLoad (.ofWord unit)) ∧
    ∀ first, world.place? world.start = some first →
      (∃ unit ∈ Text.units (world.intro ++ first.render), lastOperand < unit.toNat) →
      Machine.Faults game := by
  constructor
  · intro count error fault
    exact fault_of_text compiled loaded count fault
  · rintro first found ⟨unit, told, wide⟩
    exact faults_of_opening compiled loaded found told wide

/-- The two rooms never fault. -/
theorem faults_at_wide_units_twoRooms :
    ∃ image, twoRooms.compile = .ok image ∧ ∃ game : Adventure,
      Machine.ofImage image (BufferedInput.ofText "sit\nnorth\n") BufferedOutput.empty false =
        .ok game ∧
      ¬ Machine.Faults game := by
  obtain ⟨image, compiled, fits⟩ := twoRooms_compiles
  obtain ⟨game, loaded⟩ := exists_loaded fits (BufferedInput.ofText "sit\nnorth\n")
    BufferedOutput.empty false
  refine ⟨image, compiled, game, loaded, ?_⟩
  rintro ⟨count, error, fault⟩
  obtain ⟨text, told, unit, inside, wide, _⟩ :=
    (faults_at_wide_units compiled loaded).1 count error fault
  have narrow : ∀ text ∈ twoRooms.texts, Text.Narrow text := by decide
  have low : unit.toNat ≤ lastOperand :=
    Nat.le_trans ((narrow text told).toNat_le inside) (by decide)
  exact absurd wide (Nat.not_lt_of_le low)

/-- A place whose title is the first character beyond the registers. -/
def wideRoom : World where
  start := "a"
  intro := ""
  places := [⟨"a", "\u8008", "d", [], [], []⟩]

/-- The world is accepted and its image is loaded, and then its title can not be written. -/
theorem wideRoom_faults :
    ∃ image, wideRoom.compile = .ok image ∧ ∃ game : Adventure,
      Machine.ofImage image BufferedInput.empty BufferedOutput.empty false = .ok game ∧
      ∃ count, (game.after count).step.2 = .error (.invalidLoad (.ofWord 0x8008)) := by
  obtain ⟨image, compiled, fits⟩ : ∃ image, wideRoom.compile = .ok image ∧
      image.length ≤ Image.maxBytes := by
    apply exists_image <;> decide +kernel
  obtain ⟨game, loaded⟩ := exists_loaded fits BufferedInput.empty BufferedOutput.empty false
  refine ⟨image, compiled, game, loaded, ?_⟩
  have titled : (0x8008 : UInt16) ∈
      Text.units (wideRoom.intro ++ Place.render ⟨"a", "\u8008", "d", [], [], []⟩) := by
    decide +kernel
  obtain ⟨count, error, fault⟩ := faults_of_opening compiled loaded rfl titled (by decide)
  obtain ⟨text, told, unit, inside, wide, rfl⟩ := fault_of_text compiled loaded count fault
  have units : wideRoom.texts.flatMap Text.units = [0x8008, 100] := by decide
  have listed : unit ∈ wideRoom.texts.flatMap Text.units :=
    List.mem_flatMap.mpr ⟨text, told, inside⟩
  rw [units] at listed
  rcases List.mem_cons.mp listed with rfl | letter
  · exact ⟨count, fault⟩
  · rw [List.mem_singleton.mp letter] at wide
    exact absurd wide (by decide)

end AdventureMachine.World
