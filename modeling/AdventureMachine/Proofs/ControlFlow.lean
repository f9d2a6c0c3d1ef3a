import AdventureMachine.Proofs.Dispatch

/-! Where control can go in a guest program. A program that is built places every label it refers
to. Code that is made of plain instructions and ends in a jump therefore keeps the program counter
on its instructions, whatever it reads. All that can fault there is an operand that is neither a
literal nor a register. -/
namespace AdventureMachine

namespace Assembly

variable {assembly : Assembly} {name : Label}

theorem mem_cells_print {cell : Cell} (text : List UInt16)
    (member : cell ∈ assembly.cells.toList) : cell ∈ (assembly.printUnits text).cells.toList := by
  induction text generalizing assembly with
  | nil => exact member
  | cons unit rest ih =>
    apply ih
    simp only [emitOp, emit, Array.toList_appendList, Array.toList_push]
    exact List.mem_append_left _ (List.mem_append_left _ member)

theorem mem_cells_add {directive : Directive} (regular : directive.regular = true) {cell : Cell}
    (member : cell ∈ assembly.cells.toList ∨ ∃ name ∈ directive.referred, cell = .label name) :
    cell ∈ (assembly.add directive).cells.toList := by
  cases directive with
  | label name => simpa [add, place, Directive.referred] using member
  | instruction opcode arguments =>
    simp only [add, emit, Array.toList_appendList, Array.toList_push]
    rcases member with earlier | ⟨name, named, rfl⟩
    · exact List.mem_append_left _ (List.mem_append_left _ earlier)
    · obtain ⟨argument, listed, same⟩ := List.mem_filterMap.mp named
      cases argument with
      | number value => cases same
      | label other =>
        cases same
        exact List.mem_append_right _ (List.mem_map.mpr ⟨_, listed, rfl⟩)
  | data words =>
    have earlier : cell ∈ assembly.cells.toList := by simpa [Directive.referred] using member
    simp only [add, Array.toList_appendList]
    exact List.mem_append_left _ earlier
  | print text =>
    have earlier : cell ∈ assembly.cells.toList := by simpa [Directive.referred] using member
    exact mem_cells_print text earlier
  | readLine first scratch flag => cases regular

theorem mem_labels_add {directive : Directive} (regular : directive.regular = true)
    (present : name ∈ (assembly.add directive).labels) :
    name ∈ assembly.labels ∨ name ∈ directive.placed := by
  cases directive with
  | label other =>
    simp only [add, place, Std.HashMap.mem_insert, beq_iff_eq] at present
    rcases present with rfl | earlier
    · exact .inr (List.mem_singleton_self _)
    · exact .inl earlier
  | instruction opcode arguments => exact .inl present
  | data words => exact .inl present
  | print text => exact ((assembly.adds_print text).labels name).mp present
  | readLine first scratch flag => cases regular

/-- The labels that a program refers to wait in its cells. -/
theorem mem_cells_program {program : List Directive}
    (regular : ∀ directive ∈ program, directive.regular = true) {cell : Cell}
    (member : cell ∈ assembly.cells.toList ∨
      ∃ name ∈ program.flatMap Directive.referred, cell = .label name) :
    cell ∈ (program.foldl add assembly).cells.toList := by
  induction program generalizing assembly with
  | nil => simpa using member
  | cons directive rest ih =>
    have first := regular directive (by simp)
    apply ih (fun other listed => regular other (by simp [listed]))
    rcases member with earlier | ⟨name, named, rfl⟩
    · exact .inl (mem_cells_add first (.inl earlier))
    · rcases List.mem_append.mp (List.flatMap_cons ▸ named) with here | later
      · exact .inl (mem_cells_add first (.inr ⟨name, here, rfl⟩))
      · exact .inr ⟨name, later, rfl⟩

theorem mem_labels_program {program : List Directive}
    (regular : ∀ directive ∈ program, directive.regular = true)
    (present : name ∈ (program.foldl add assembly).labels) :
    name ∈ assembly.labels ∨ name ∈ program.flatMap Directive.placed := by
  induction program generalizing assembly with
  | nil => exact .inl present
  | cons directive rest ih =>
    rw [List.flatMap_cons, List.mem_append, ← or_assoc]
    rcases ih (fun other listed => regular other (by simp [listed])) present with here | later
    · exact .inl (mem_labels_add (regular directive (by simp)) here)
    · exact .inr later

/-- Every cell of a program that is built was resolved. -/
theorem exists_resolved {cells : List Cell} {words : List UInt16} {cell : Cell}
    (resolved : cells.mapM assembly.resolve = .ok words) (member : cell ∈ cells) :
    ∃ word, assembly.resolve cell = .ok word := by
  induction cells generalizing words with
  | nil => cases member
  | cons head rest ih =>
    obtain ⟨word, remaining, first, others, rfl⟩ := mapM_resolve_cons resolved
    rcases List.mem_cons.mp member with rfl | later
    · exact ⟨word, first⟩
    · exact ih others later

theorem mem_labels_of_resolve {word : UInt16}
    (resolved : assembly.resolve (.label name) = .ok word) : name ∈ assembly.labels := by
  rw [resolve] at resolved
  split at resolved
  · rename_i address found
    exact (Std.HashMap.getElem?_eq_some_iff.mp found).1
  · cases resolved

/-- A program that is built places every label that it refers to. -/
theorem referred_placed {program : List Directive} {words : List UInt16}
    (built : (ofProgram program).words = .ok words)
    (regular : ∀ directive ∈ program, directive.regular = true)
    (named : name ∈ program.flatMap Directive.referred) :
    name ∈ program.flatMap Directive.placed := by
  unfold Assembly.words at built
  split at built
  · have waits : .label name ∈ (ofProgram program).cells.toList :=
      mem_cells_program regular (.inr ⟨name, named, rfl⟩)
    obtain ⟨word, resolved⟩ := exists_resolved built waits
    rcases mem_labels_program regular (mem_labels_of_resolve resolved) with none | placed
    · simp [empty] at none
    · exact placed
  · cases built

end Assembly

/-- A loaded program: its memory, where its labels stand, the units it uses and the labels it goes
to. -/
structure Site where
  memory : Memory
  spot : Label → Nat
  listed : UInt16 → Prop
  known : Label → Prop

/-- What guest programs are made of: labels, texts, and the instructions of a matcher. Texts and
comparisons use listed units only, and jumps go to known labels. -/
inductive Directive.Plain (listed : UInt16 → Prop) (known : Label → Prop) : Directive → Prop where
  | label (name : Label) : Plain listed known (.label name)
  | print {text : List UInt16} (spelled : ∀ unit ∈ text, listed unit) :
      Plain listed known (.print text)
  | output {unit : UInt16} (spelled : listed unit) :
      Plain listed known (.op .output [.literal unit.toNat])
  | read : Plain listed known readNext
  | compare {value : Nat} (spelled : listed (.ofNat value)) :
      Plain listed known (.op .eq [World.outcome, World.readUnit, .literal value])
  | branch {target : Label} (placed : known target) :
      Plain listed known (.op .jt [World.outcome, .label target])
  | jump {target : Label} (placed : known target) :
      Plain listed known (.op .jmp [.label target])

theorem Directive.Plain.regular {listed : UInt16 → Prop} {known : Label → Prop}
    {directive : Directive} (plain : directive.Plain listed known) :
    directive.regular = true := by
  cases plain <;> rfl

/-- Where a plain directive goes is known once the labels are that it refers to. -/
theorem Directive.Plain.refer {listed : UInt16 → Prop} {known wanted : Label → Prop}
    {directive : Directive} (plain : directive.Plain listed known)
    (referred : ∀ name ∈ directive.referred, wanted name) : directive.Plain listed wanted := by
  cases plain with
  | label name => exact .label name
  | print spelled => exact .print spelled
  | output spelled => exact .output spelled
  | read => exact .read
  | compare spelled => exact .compare spelled
  | branch _ => exact .branch (referred _ (List.mem_singleton_self _))
  | jump _ => exact .jump (referred _ (List.mem_singleton_self _))

/-- The code ends in a jump. -/
def Directive.Ends (code : List Directive) : Prop :=
  ∃ target, code.getLast? = some (.op .jmp [.label target])

theorem Directive.Ends.append {front back : List Directive} (ends : Ends back) :
    Ends (front ++ back) := by
  obtain ⟨target, last⟩ := ends
  exact ⟨target, by rw [List.getLast?_append, last, Option.some_or]⟩

/-- Parts that end in jumps can be put behind code that ends in one, or left out. -/
theorem Directive.Ends.append_flatMap {α : Type} {front : List Directive} {parts : List α}
    {code : α → List Directive} (ends : Ends front) (each : ∀ part ∈ parts, Ends (code part)) :
    Ends (front ++ parts.flatMap code) := by
  induction parts generalizing front with
  | nil => rwa [List.flatMap_nil, List.append_nil]
  | cons part rest ih =>
    obtain ⟨first, others⟩ := List.forall_mem_cons.mp each
    rw [List.flatMap_cons, ← List.append_assoc]
    exact ih first.append others

theorem Lies.printed {memory : Memory} {spot : Label → Nat} {start stop : Nat}
    {text : List UInt16} {rest : List Directive}
    (lies : Lies memory spot start (.print text :: rest) stop) :
    ∃ middle, Lies memory spot start
        (text.map fun unit => .op .output [.literal unit.toNat]) middle ∧
      Lies memory spot middle rest stop := by
  cases lies with
  | print written behind => exact ⟨_, written, behind⟩

namespace Machine

/-- Some step of the machine faults. -/
def Faults (machine : Adventure) : Prop :=
  ∃ count error, (machine.after count).step.2 = .error error

theorem Faults.of_step {machine : Adventure} (faults : Faults machine.step.1) : Faults machine := by
  obtain ⟨count, error, fault⟩ := faults
  exact ⟨count + 1, error, fault⟩

theorem Faults.of_after {machine : Adventure} {count : Nat}
    (faults : Faults (machine.after count)) : Faults machine := by
  induction count generalizing machine with
  | zero => exact faults
  | succ count ih => exact (ih faults).of_step

end Machine

namespace Site

variable {site : Site}

/-- Plain code that does not run on behind its end. -/
structure Closed (site : Site) (code : List Directive) : Prop where
  plain : ∀ directive ∈ code, directive.Plain site.listed site.known
  ends : Directive.Ends code

theorem Closed.behind {front back : List Directive} (closed : site.Closed (front ++ back))
    (more : back ≠ []) : site.Closed back := by
  obtain ⟨target, last⟩ := closed.ends
  refine ⟨fun directive member => closed.plain directive (List.mem_append_right _ member),
    target, ?_⟩
  cases found : back.getLast? with
  | none => exact absurd (List.getLast?_eq_none_iff.mp found) more
  | some directive => rwa [List.getLast?_append, found, Option.some_or] at last

theorem Closed.prepend {front back : List Directive} (closed : site.Closed back)
    (plain : ∀ directive ∈ front, directive.Plain site.listed site.known) :
    site.Closed (front ++ back) := by
  refine ⟨?_, closed.ends.append⟩
  intro directive member
  exact (List.mem_append.mp member).elim (plain directive) (closed.plain directive)

theorem Closed.tail {directive : Directive} {rest : List Directive}
    (closed : site.Closed (directive :: rest))
    (other : ∀ target, directive ≠ .op .jmp [.label target]) : site.Closed rest := by
  have more : rest ≠ [] := by
    rintro rfl
    obtain ⟨target, last⟩ := closed.ends
    exact other target (Option.some.inj last)
  rw [← List.singleton_append] at closed
  exact closed.behind more

/-- Closed code lies from the address on. -/
def Lands (site : Site) (start : Nat) : Prop :=
  ∃ code stop, Lies site.memory site.spot start code stop ∧ site.Closed code

/-- Behind labels and texts that are over, there is an instruction. -/
theorem Lands.instruction {start : Nat} (lands : site.Lands start) :
    ∃ opcode arguments rest stop,
      Lies site.memory site.spot start (.instruction opcode arguments :: rest) stop ∧
      site.Closed (.instruction opcode arguments :: rest) := by
  obtain ⟨code, stop, lies, closed⟩ := lands
  induction code generalizing start with
  | nil =>
    obtain ⟨target, last⟩ := closed.ends
    cases last
  | cons directive rest ih =>
    cases closed.plain directive (by simp) with
    | label name => exact ih lies.labelled.2 (closed.tail nofun)
    | @print text spelled =>
      have more := closed.tail nofun
      obtain ⟨middle, written, behind⟩ := lies.printed
      cases text with
      | nil =>
        cases written
        exact ih behind more
      | cons unit others =>
        -- In the middle of a text, what is left of it stands in front of the code behind it.
        have outputs : ∀ directive ∈ (unit :: others).map fun unit =>
            Directive.op .output [.literal unit.toNat], directive.Plain site.listed site.known := by
          intro directive member
          obtain ⟨unit, among, rfl⟩ := List.mem_map.mp member
          exact .output (spelled unit among)
        exact ⟨_, _, _, _, written.append behind, more.prepend outputs⟩
    | output spelled => exact ⟨_, _, _, _, lies, closed⟩
    | read => exact ⟨_, _, _, _, lies, closed⟩
    | compare spelled => exact ⟨_, _, _, _, lies, closed⟩
    | branch placed => exact ⟨_, _, _, _, lies, closed⟩
    | jump placed => exact ⟨_, _, _, _, lies, closed⟩

theorem Lands.inside {start : Nat} (lands : site.Lands start) : start < memorySize := by
  obtain ⟨opcode, arguments, rest, stop, lies, _⟩ := lands.instruction
  exact lies.start_lt List.mem_cons_self

/-- The machine has the program in memory and stands at the address. -/
structure Stands (site : Site) (machine : Adventure) (start : Nat) : Prop where
  memory : machine.memory = site.memory
  counter : machine.pc = .ofNat start

/-- A machine that is about to execute closed code. -/
def Safe (site : Site) (machine : Adventure) : Prop :=
  ∃ start, site.Stands machine start ∧ site.Lands start

/-- The machine is about to execute closed code again; if there was a fault, it was a listed unit
that is no operand. -/
structure Proceeds (site : Site) (result : Adventure × Machine.Outcome) : Prop where
  safe : site.Safe result.1
  fault : ∀ error, result.2 = .error error →
    ∃ unit, site.listed unit ∧ lastOperand < unit.toNat ∧ error = .invalidLoad (.ofWord unit)

theorem proceeds_commit {machine : Adventure} {start : Nat} (same : machine.memory = site.memory)
    (lands : site.Lands start) : site.Proceeds (machine.commit (.ofNat start)) :=
  ⟨⟨start, ⟨same, rfl⟩, lands⟩, nofun⟩

/-- A listed unit that is no operand leaves the machine where it is. -/
theorem proceeds_refused {machine : Adventure} {unit : UInt16} (safe : site.Safe machine)
    (spelled : site.listed unit) (wide : lastOperand < unit.toNat) :
    site.Proceeds (machine, .error (.invalidLoad (.ofWord unit))) :=
  ⟨safe, fun _ fault => ⟨unit, spelled, wide, (Except.error.inj fault).symm⟩⟩

section Step

variable {machine : Adventure} {start stop : Nat} {rest : List Directive}

theorem Stands.fetch (stands : site.Stands machine start) {opcode : Opcode}
    {arguments : List Argument}
    (lies : Lies site.memory site.spot start (.op opcode arguments :: rest) stop)
    (count : arguments.length = opcode.arity) :
    machine.toState.fetch = .ok
      (.decode opcode fun position => (arguments.map (Argument.word site.spot)).getD position 0,
        start + (arguments.length + 1)) := by
  have held := lies.op.1
  rw [← stands.memory] at held
  have fetched := State.fetch_of_holds stands.counter held (by rwa [List.length_map])
  rwa [List.length_map] at fetched

/-- A unit is written unless it is no operand. -/
theorem Stands.step_output (stands : site.Stands machine start) {unit : UInt16}
    (lies : Lies site.memory site.spot start (.op .output [.literal unit.toNat] :: rest) stop) :
    if lastOperand < unit.toNat then
      machine.step = (machine, .error (.invalidLoad (.ofWord unit)))
    else ∃ sink, machine.step = Machine.commit { machine with sink } (.ofNat (start + 2)) := by
  have fetched := stands.fetch lies rfl
  simp only [List.map_cons, List.map_nil, Argument.word_literal, UInt16.ofNat_toNat] at fetched
  split
  · rename_i wide
    have planned : machine.toState.plan (.output unit) =
        .error (.invalidLoad (.ofWord unit)) := by
      simp only [State.plan, machine.registers.resolve_eq_error wide]
      rfl
    exact Machine.step_of_plan_error fetched planned
  · rename_i operand
    obtain ⟨value, resolved, _⟩ := machine.registers.resolve_of_le (Nat.le_of_not_lt operand)
    have planned : machine.toState.plan (.output unit) = .ok (.emit value.toUInt8) := by
      simp only [State.plan, resolved]
      rfl
    exact ⟨_, Machine.step_of_plan fetched planned⟩

theorem Stands.proceeds_output (stands : site.Stands machine start) {unit : UInt16}
    (spelled : site.listed unit)
    (lies : Lies site.memory site.spot start (.op .output [.literal unit.toNat] :: rest) stop)
    (closed : site.Closed (.op .output [.literal unit.toNat] :: rest)) :
    site.Proceeds machine.step := by
  have stepped := stands.step_output lies
  split at stepped
  · rename_i wide
    rw [stepped]
    exact proceeds_refused ⟨start, stands, _, _, lies, closed⟩ spelled wide
  · obtain ⟨sink, committed⟩ := stepped
    rw [committed]
    exact proceeds_commit stands.memory ⟨_, _, lies.op.2, closed.tail nofun⟩

/-- A read commits or waits, and then nothing has changed for the code. -/
theorem Stands.proceeds_read (stands : site.Stands machine start)
    (lies : Lies site.memory site.spot start (readNext :: rest) stop)
    (closed : site.Closed (readNext :: rest)) : site.Proceeds machine.step := by
  have performed : machine.step = machine.perform (start + 2) (.receive 1) :=
    Machine.step_of_plan (stands.fetch lies rfl) (plan_readNext _)
  rw [performed]
  rcases answered : ByteSource.readVisible machine.source with ⟨error | _ | byte, source⟩
  · exact absurd (by rw [answered]) (machine.source.readVisible_ne_error error)
  · simp only [Machine.perform, answered]
    exact ⟨⟨start, ⟨stands.memory, stands.counter⟩, _, _, lies, closed⟩,
      fun _ refused => by cases refused⟩
  · simp only [Machine.perform, answered]
    exact proceeds_commit stands.memory ⟨_, _, lies.op.2, closed.tail fun _ same => by cases same⟩

theorem Stands.proceeds_compare (stands : site.Stands machine start) {value : Nat}
    (spelled : site.listed (.ofNat value))
    (lies : Lies site.memory site.spot start
      (.op .eq [World.outcome, World.readUnit, .literal value] :: rest) stop)
    (closed : site.Closed (.op .eq [World.outcome, World.readUnit, .literal value] :: rest)) :
    site.Proceeds machine.step := by
  have fetched := stands.fetch lies rfl
  simp only [List.map_cons, List.map_nil, Argument.word_literal] at fetched
  have left : machine.registers.resolve (World.readUnit.word site.spot) =
      .ok (machine.registers.get 1) := Argument.resolve_register site.spot machine.registers 1
  have named : Operand.wordDestination (World.outcome.word site.spot) = .ok 2 :=
    Argument.wordDestination_register site.spot 2
  rcases Nat.lt_or_ge lastOperand (UInt16.ofNat value).toNat with wide | operand
  · have planned : machine.toState.plan (.binary .eq (World.outcome.word site.spot)
        (World.readUnit.word site.spot) (.ofNat value)) =
        .error (.invalidLoad (.ofWord (.ofNat value))) := by
      simp only [State.plan, left, machine.registers.resolve_eq_error wide]
      rfl
    rw [Machine.step_of_plan_error fetched planned]
    exact proceeds_refused ⟨start, stands, _, _, lies, closed⟩ spelled wide
  · obtain ⟨right, resolved, _⟩ := machine.registers.resolve_of_le operand
    obtain ⟨outcome, planned⟩ : ∃ outcome, machine.toState.plan (.binary .eq
        (World.outcome.word site.spot) (World.readUnit.word site.spot) (.ofNat value)) =
        .ok (.assign 2 outcome) := by
      have small : (if machine.registers.get 1 = right then (1 : UInt16) else 0).toNat ≤
          maxLiteral := by
        split <;> decide
      refine ⟨if machine.registers.get 1 = right then 1 else 0, ?_⟩
      simp only [State.plan, left, resolved, bind, Except.bind, Binary.apply, State.assignment,
        machine.registers.resolve_literal small, named]
      rfl
    rw [Machine.step_of_plan fetched planned]
    exact proceeds_commit stands.memory ⟨_, _, lies.op.2, closed.tail fun _ same => by cases same⟩

theorem perform_jump (machine : Adventure) (next : Nat) {target : Nat}
    (inside : target < memorySize) :
    machine.perform next (.jump (.ofNat target)) = machine.commit (.ofNat target) :=
  congrArg (fun address => machine.commit (.ofNat address)) (toNat_ofNat_of_inside inside)

theorem Stands.step_jump (stands : site.Stands machine start) {target : Label}
    (lies : Lies site.memory site.spot start (.op .jmp [.label target] :: rest) stop)
    (inside : site.spot target < memorySize) :
    machine.step = machine.commit (.ofNat (site.spot target)) := by
  rw [Machine.step_of_plan (stands.fetch lies rfl) (machine.toState.plan_jump inside)]
  exact perform_jump machine _ inside

theorem Stands.proceeds_branch (stands : site.Stands machine start) {target : Label}
    (lies : Lies site.memory site.spot start (.op .jt [World.outcome, .label target] :: rest) stop)
    (closed : site.Closed (.op .jt [World.outcome, .label target] :: rest))
    (there : site.Lands (site.spot target)) : site.Proceeds machine.step := by
  have condition : machine.registers.resolve (World.outcome.word site.spot) =
      .ok (machine.registers.get 2) := Argument.resolve_register site.spot machine.registers 2
  have planned : machine.toState.plan (.branch true (World.outcome.word site.spot)
      (.ofNat (site.spot target))) =
      if (machine.registers.get 2 != 0) = true then
        machine.toState.plan (.jump (.ofNat (site.spot target)))
      else .ok .advance := State.plan_branch condition
  rw [machine.toState.plan_jump there.inside] at planned
  split at planned
  · rw [Machine.step_of_plan (stands.fetch lies rfl) planned]
    have performed := perform_jump machine (start + 3) there.inside
    exact performed ▸ proceeds_commit stands.memory there
  · rw [Machine.step_of_plan (stands.fetch lies rfl) planned]
    exact proceeds_commit stands.memory ⟨_, _, lies.op.2, closed.tail nofun⟩

/-- A step from closed code goes on in closed code. -/
theorem Safe.step (reaches : ∀ name, site.known name → site.Lands (site.spot name))
    (safe : site.Safe machine) : site.Proceeds machine.step := by
  obtain ⟨start, stands, lands⟩ := safe
  obtain ⟨opcode, arguments, rest, stop, lies, closed⟩ := lands.instruction
  cases closed.plain _ List.mem_cons_self with
  | output spelled => exact stands.proceeds_output spelled lies closed
  | read => exact stands.proceeds_read lies closed
  | compare spelled => exact stands.proceeds_compare spelled lies closed
  | branch placed => exact stands.proceeds_branch lies closed (reaches _ placed)
  | jump placed =>
    have there := reaches _ placed
    rw [stands.step_jump lies there.inside]
    exact proceeds_commit stands.memory there

theorem Safe.after (reaches : ∀ name, site.known name → site.Lands (site.spot name))
    (safe : site.Safe machine) (count : Nat) : site.Safe (machine.after count) := by
  induction count generalizing machine with
  | zero => exact safe
  | succ count ih => exact ih (safe.step reaches).safe

theorem Stands.commit (stands : site.Stands machine start) {target : Nat}
    (stepped : machine.step = machine.commit (.ofNat target)) :
    site.Stands machine.step.1 target := by
  rw [stepped]
  exact ⟨stands.memory, rfl⟩

/-- A text is written to its end unless one of its units is no operand. -/
theorem Stands.written {text : List UInt16} (stands : site.Stands machine start)
    (lies : Lies site.memory site.spot start
      (text.map fun unit => .op .output [.literal unit.toNat]) stop) :
    machine.Faults ∨
      (∀ unit ∈ text, unit.toNat ≤ lastOperand) ∧
        ∃ count, site.Stands (machine.after count) stop := by
  induction text generalizing machine start with
  | nil =>
    cases lies
    exact .inr ⟨List.forall_mem_nil _, 0, stands⟩
  | cons unit others ih =>
    have stepped := stands.step_output lies
    split at stepped
    · exact .inl ⟨0, _, congrArg Prod.snd stepped⟩
    · rename_i operand
      obtain ⟨sink, committed⟩ := stepped
      have next : site.Stands machine.step.1 (start + 2) := by
        rw [committed]
        exact ⟨stands.memory, rfl⟩
      rcases ih next lies.op.2 with faults | ⟨rest, count, reached⟩
      · exact .inl faults.of_step
      · exact .inr ⟨List.forall_mem_cons.mpr ⟨Nat.le_of_not_lt operand, rest⟩, count + 1, reached⟩

end Step

/-- Every label that closed code places can be gone to. -/
theorem lands_of_placed {program : List Directive} {start stop : Nat} {name : Label}
    (lies : Lies site.memory site.spot start program stop) (closed : site.Closed program)
    (placed : name ∈ program.flatMap Directive.placed) : site.Lands (site.spot name) := by
  obtain ⟨directive, member, here⟩ := List.mem_flatMap.mp placed
  have same : directive = .label name := by
    cases directive with
    | label other => rw [List.mem_singleton.mp here]
    | instruction opcode arguments => cases here
    | data words => cases here
    | print text => cases here
    | readLine first scratch flag => cases here
  subst same
  obtain ⟨front, back, rfl⟩ := List.append_of_mem member
  obtain ⟨middle, _, labelled⟩ := lies.split
  obtain ⟨spot, behind⟩ := labelled.labelled
  rw [spot]
  exact ⟨back, stop, behind, (closed.behind (List.cons_ne_nil _ _)).tail nofun⟩

end Site

/-- The site of a program that was built. -/
def Assembly.site (program : List Directive) (words : List UInt16) (listed : UInt16 → Prop) :
    Site where
  memory := .ofWords words.toArray
  spot := (ofProgram program).spot
  listed := listed
  known name := name ∈ program.flatMap Directive.placed

section Built

variable {program : List Directive} {words : List UInt16} {listed : UInt16 → Prop}
  (built : (Assembly.ofProgram program).words = .ok words)
  (plain : ∀ directive ∈ program, directive.Plain listed fun _ => True)
  (ends : Directive.Ends program)

include built plain ends

theorem Assembly.closed_site : (site program words listed).Closed program := by
  refine ⟨?_, ends⟩
  intro directive member
  refine (plain directive member).refer ?_
  intro name named
  exact referred_placed built (fun other listed => (plain other listed).regular)
    (List.mem_flatMap.mpr ⟨directive, member, named⟩)

/-- A program that is built from plain directives and ends in a jump faults only where it uses a
listed unit that is no operand. -/
theorem Assembly.faults_listed (fits : words.length ≤ memorySize) (source : BufferedInput)
    (sink : BufferedOutput) (tracing : Bool) (count : Nat) {error : Error}
    (fault : ((Machine.ofState (.initial (.ofWords words.toArray)) source sink tracing).after
      count).step.2 = .error error) :
    ∃ unit, listed unit ∧ lastOperand < unit.toNat ∧ error = .invalidLoad (.ofWord unit) := by
  have lies := lies_ofProgram built fits
  have closed := closed_site built plain ends
  have reaches : ∀ name, (site program words listed).known name →
      (site program words listed).Lands ((ofProgram program).spot name) :=
    fun name placed => Site.lands_of_placed lies closed placed
  have safe : (site program words listed).Safe
      (.ofState (.initial (.ofWords words.toArray)) source sink tracing) :=
    ⟨0, ⟨rfl, rfl⟩, program, words.length, lies, closed⟩
  exact ((safe.after reaches count).step reaches).fault error fault

end Built

end AdventureMachine
