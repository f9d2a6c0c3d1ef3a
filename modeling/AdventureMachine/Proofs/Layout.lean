import AdventureMachine.Assembly
import AdventureMachine.Proofs.Codec
import Mathlib.Algebra.GroupWithZero.Nat

/-! Where an assembled program lies. A build that succeeds placed every label once, so all
references to a label resolve to the address it was placed at, before or behind them. Once the
image is loaded, each directive stands at its address in memory with its labels resolved. -/
namespace AdventureMachine

/-- The words stand in consecutive cells from `start` on. -/
structure Memory.Holds (memory : Memory) (start : Nat) (words : List UInt16) : Prop where
  inside : start + words.length ≤ memorySize
  word : ∀ index word, words[index]? = some word → memory.word (start + index) = word

theorem Memory.word_ofWords {words : Array UInt16} {address : Nat} (inside : address < memorySize) :
    (ofWords words).word address = words.getD address 0 := by
  have read := (ofWords words).word_eq_get ⟨address, inside⟩
  rwa [get_ofWords] at read

/-- The word of a cell, given where the labels stand. -/
def Cell.resolved (spot : Label → Nat) : Cell → UInt16
  | .word value => value
  | .label name => .ofNat (spot name)

/-- The word of an argument, given where the labels stand. -/
def Argument.word (spot : Label → Nat) (argument : Argument) : UInt16 := argument.cell.resolved spot

/-- The loop that takes a line of input, written out for the address where it starts. -/
def Directive.readLineLoop (address : Nat) (first scratch flag : Argument) : List Directive :=
  let loop := Text.units ("__readline_" ++ decimal address)
  let done := loop ++ Text.units "_done"
  [.op .input [first], .op .set [scratch, first], .label loop,
    .op .eq [flag, scratch, .literal newline], .op .jt [flag, .label done], .op .input [scratch],
    .op .jmp [.label loop], .label done]

/-- A program lies in memory from one address up to another. -/
inductive Lies (memory : Memory) (spot : Label → Nat) : Nat → List Directive → Nat → Prop where
  | none (start : Nat) : Lies memory spot start [] start
  | label {name : Label} {start stop : Nat} {rest : List Directive} (placed : spot name = start)
      (behind : Lies memory spot start rest stop) :
      Lies memory spot start (.label name :: rest) stop
  | instruction {opcode : Number} {arguments : List Argument} {start stop : Nat}
      {rest : List Directive}
      (held : memory.Holds start (opcode.toWord :: arguments.map (Argument.word spot)))
      (behind : Lies memory spot (start + (arguments.length + 1)) rest stop) :
      Lies memory spot start (.instruction opcode arguments :: rest) stop
  | data {words : List Number} {start stop : Nat} {rest : List Directive}
      (held : memory.Holds start (words.map Number.toWord))
      (behind : Lies memory spot (start + words.length) rest stop) :
      Lies memory spot start (.data words :: rest) stop
  | print {text : List UInt16} {start middle stop : Nat} {rest : List Directive}
      (written : Lies memory spot start
        (text.map fun unit => .op .output [.literal unit.toNat]) middle)
      (behind : Lies memory spot middle rest stop) :
      Lies memory spot start (.print text :: rest) stop
  | readLine {first scratch flag : Argument} {start middle stop : Nat} {rest : List Directive}
      (written : Lies memory spot start (Directive.readLineLoop start first scratch flag) middle)
      (behind : Lies memory spot middle rest stop) :
      Lies memory spot start (.readLine first scratch flag :: rest) stop

namespace Lies

variable {memory : Memory} {spot : Label → Nat}

theorem append {front back : List Directive} {start middle stop : Nat}
    (first : Lies memory spot start front middle) (second : Lies memory spot middle back stop) :
    Lies memory spot start (front ++ back) stop := by
  induction front generalizing start with
  | nil =>
    cases first
    exact second
  | cons directive rest ih =>
    cases first with
    | label placed behind => exact .label placed (ih behind)
    | instruction held behind => exact .instruction held (ih behind)
    | data held behind => exact .data held (ih behind)
    | print written behind => exact .print written (ih behind)
    | readLine written behind => exact .readLine written (ih behind)

theorem split {front back : List Directive} {start stop : Nat}
    (lies : Lies memory spot start (front ++ back) stop) :
    ∃ middle, Lies memory spot start front middle ∧ Lies memory spot middle back stop := by
  induction front generalizing start with
  | nil => exact ⟨start, .none start, lies⟩
  | cons directive rest ih =>
    cases lies with
    | label placed behind =>
      obtain ⟨middle, first, second⟩ := ih behind
      exact ⟨middle, .label placed first, second⟩
    | instruction held behind =>
      obtain ⟨middle, first, second⟩ := ih behind
      exact ⟨middle, .instruction held first, second⟩
    | data held behind =>
      obtain ⟨middle, first, second⟩ := ih behind
      exact ⟨middle, .data held first, second⟩
    | print written behind =>
      obtain ⟨middle, first, second⟩ := ih behind
      exact ⟨middle, .print written first, second⟩
    | readLine written behind =>
      obtain ⟨middle, first, second⟩ := ih behind
      exact ⟨middle, .readLine written first, second⟩

/-- Every part of a program that is put together from parts lies somewhere. -/
theorem of_mem_flatMap {α : Type} {code : α → List Directive} {parts : List α} {part : α}
    {start stop : Nat} (lies : Lies memory spot start (parts.flatMap code) stop)
    (member : part ∈ parts) : ∃ first last, Lies memory spot first (code part) last := by
  obtain ⟨front, back, rfl⟩ := List.append_of_mem member
  rw [List.flatMap_append, List.flatMap_cons] at lies
  obtain ⟨first, _, rest⟩ := lies.split
  obtain ⟨last, found, _⟩ := rest.split
  exact ⟨first, last, found⟩

end Lies

namespace Assembly

/-- One assembly grew into another that has no mistakes: words and labels were only added. -/
structure Grows (assembly final : Assembly) : Prop where
  cells : assembly.cells.toList <+: final.cells.toList
  labels : ∀ (name : Label) (address : Nat), assembly.labels[name]? = some address →
    final.labels[name]? = some address
  problems : assembly.problems = #[]

variable {assembly final : Assembly}

theorem Grows.place {name : Label} (grows : Grows (assembly.place name) final) :
    Grows assembly final := by
  obtain ⟨cells, labels, problems⟩ := grows
  simp only [Assembly.place] at cells labels problems
  by_cases present : assembly.labels.contains name = true
  · rw [if_pos present] at problems
    exact absurd (congrArg Array.size problems) (by simp)
  · rw [if_neg present] at problems
    refine ⟨cells, ?_, problems⟩
    intro other address held
    apply labels
    have different : name ≠ other := by
      rintro rfl
      exact present (by rw [Std.HashMap.contains_eq_isSome_getElem?, held]; rfl)
    rw [Std.HashMap.getElem?_insert, if_neg (by simpa using different), held]

theorem Grows.placed {name : Label} (grows : Grows (assembly.place name) final) :
    final.labels[name]? = some assembly.address := by
  apply grows.labels
  simp [Assembly.place, address]

theorem Grows.emit {opcode : Number} {arguments : List Argument}
    (grows : Grows (assembly.emit opcode arguments) final) : Grows assembly final := by
  obtain ⟨cells, labels, problems⟩ := grows
  simp only [Assembly.emit] at cells labels problems
  refine ⟨?_, labels, ?_⟩
  · refine List.IsPrefix.trans ?_ cells
    rw [Array.toList_appendList, Array.toList_push, List.append_assoc]
    exact List.prefix_append _ _
  · split at problems
    · exact problems
    · exact absurd (congrArg Array.size problems) (by simp)

theorem Grows.emitted {opcode : Number} {arguments : List Argument}
    (grows : Grows (assembly.emit opcode arguments) final) :
    assembly.cells.toList ++ .word opcode.toWord :: arguments.map Argument.cell <+:
      final.cells.toList := by
  have cells := grows.cells
  simp only [Assembly.emit] at cells
  rwa [Array.toList_appendList, Array.toList_push, List.append_assoc] at cells

theorem address_emit (opcode : Number) (arguments : List Argument) :
    (assembly.emit opcode arguments).address = assembly.address + (arguments.length + 1) := by
  simp only [address, emit, ← Array.length_toList, Array.toList_appendList, Array.toList_push,
    List.length_append, List.length_map, List.length_singleton]
  omega

theorem address_data (words : List Number) :
    (assembly.add (.data words)).address = assembly.address + words.length := by
  simp only [address, add, ← Array.length_toList, Array.toList_appendList, List.length_append,
    List.length_map]

theorem add_readLine (first scratch flag : Argument) :
    assembly.add (.readLine first scratch flag) =
      (Directive.readLineLoop assembly.address first scratch flag).foldl add assembly := rfl

theorem add_print (text : List UInt16) :
    assembly.add (.print text) =
      (text.map fun unit => Directive.op .output [.literal unit.toNat]).foldl add assembly := by
  simp only [add, printUnits, List.foldl_map]
  rfl

section Loading

/-- The memory that a finished assembly is loaded into, and the places of its labels. -/
structure Loads (final : Assembly) (memory : Memory) (spot : Label → Nat) : Prop where
  held : memory.Holds 0 (final.cells.toList.map (Cell.resolved spot))
  spots : ∀ (name : Label) (address : Nat), final.labels[name]? = some address →
    spot name = address

variable {memory : Memory} {spot : Label → Nat}

/-- Cells that follow an assembly in the finished one are held behind it. -/
theorem Loads.holds (loads : Loads final memory spot) {cells : List Cell}
    (follow : assembly.cells.toList ++ cells <+: final.cells.toList) :
    memory.Holds assembly.address (cells.map (Cell.resolved spot)) := by
  obtain ⟨rest, whole⟩ := follow
  have bound := loads.held.inside
  have start : assembly.cells.toList.length = assembly.address := Array.length_toList
  rw [← whole] at bound
  simp only [List.length_map, List.length_append, start] at bound
  refine ⟨by rw [List.length_map]; omega, ?_⟩
  intro index word found
  have inside : index < (cells.map (Cell.resolved spot)).length :=
    (List.getElem?_eq_some_iff.mp found).1
  have placed : (final.cells.toList.map (Cell.resolved spot))[assembly.address + index]? =
      some word := by
    rw [← whole, List.map_append, List.map_append, List.append_assoc, List.getElem?_append_right,
      List.length_map, start, Nat.add_sub_cancel_left, List.getElem?_append_left inside, found]
    rw [List.length_map, start]
    exact Nat.le_add_right _ _
  have held := loads.held.word _ _ placed
  rwa [Nat.zero_add] at held

/-- Wherever a directive is added on the way to the finished assembly, it lies at that address. -/
def Settles (final : Assembly) (memory : Memory) (spot : Label → Nat) (directive : Directive) :
    Prop :=
  ∀ assembly : Assembly, Grows (assembly.add directive) final →
    Grows assembly final ∧
      Lies memory spot assembly.address [directive] (assembly.add directive).address

theorem settles_program {program : List Directive}
    (settles : ∀ directive ∈ program, Settles final memory spot directive)
    (grows : Grows (program.foldl add assembly) final) :
    Grows assembly final ∧
      Lies memory spot assembly.address program (program.foldl add assembly).address := by
  induction program generalizing assembly with
  | nil => exact ⟨grows, .none _⟩
  | cons directive rest ih =>
    rw [List.foldl_cons] at grows ⊢
    obtain ⟨next, behind⟩ := ih (fun other member => settles other (by simp [member])) grows
    obtain ⟨first, here⟩ := settles directive (by simp) assembly next
    exact ⟨first, here.append behind⟩

theorem Loads.settles_label (loads : Loads final memory spot) (name : Label) :
    Settles final memory spot (.label name) := by
  intro assembly grows
  exact ⟨grows.place, .label (loads.spots _ _ grows.placed) (.none _)⟩

theorem Loads.settles_instruction (loads : Loads final memory spot) (opcode : Number)
    (arguments : List Argument) : Settles final memory spot (.instruction opcode arguments) := by
  intro assembly grows
  have held := loads.holds grows.emitted
  rw [List.map_cons, List.map_map] at held
  refine ⟨grows.emit, .instruction held ?_⟩
  rw [add, address_emit]
  exact .none _

theorem Loads.settles_data (loads : Loads final memory spot) (words : List Number) :
    Settles final memory spot (.data words) := by
  intro assembly grows
  obtain ⟨cells, labels, problems⟩ := grows
  simp only [add, Array.toList_appendList] at cells labels problems
  have held := loads.holds cells
  rw [List.map_map] at held
  refine ⟨⟨(List.prefix_append _ _).trans cells, labels, problems⟩, .data held ?_⟩
  rw [address_data]
  exact .none _

theorem Loads.settles (loads : Loads final memory spot) (directive : Directive) :
    Settles final memory spot directive := by
  cases directive with
  | label name => exact loads.settles_label name
  | instruction opcode arguments => exact loads.settles_instruction opcode arguments
  | data words => exact loads.settles_data words
  | print text =>
    intro assembly grows
    rw [add_print] at grows ⊢
    obtain ⟨first, lies⟩ := settles_program (fun directive member => by
      obtain ⟨unit, _, rfl⟩ := List.mem_map.mp member
      exact loads.settles_instruction _ _) grows
    exact ⟨first, .print lies (.none _)⟩
  | readLine first scratch flag =>
    intro assembly grows
    rw [add_readLine] at grows ⊢
    obtain ⟨earlier, lies⟩ := settles_program (fun directive member => by
      simp only [Directive.readLineLoop, Directive.op, List.mem_cons, List.not_mem_nil,
        or_false] at member
      rcases member with rfl | rfl | rfl | rfl | rfl | rfl | rfl | rfl
      all_goals first
        | exact loads.settles_instruction _ _
        | exact loads.settles_label _) grows
    exact ⟨earlier, .readLine lies (.none _)⟩

end Loading

/-- Where the labels of an assembly stand. -/
def spot (assembly : Assembly) (name : Label) : Nat := assembly.labels[name]?.getD 0

theorem resolve_ok {cell : Cell} {word : UInt16} (resolved : assembly.resolve cell = .ok word) :
    word = cell.resolved assembly.spot := by
  cases cell with
  | word value => exact (Except.ok.inj resolved).symm
  | label name =>
    unfold resolve at resolved
    simp only at resolved
    split at resolved
    · rename_i address found
      cases resolved
      rw [Cell.resolved, spot, found, Option.getD_some]
    · cases resolved

theorem mapM_resolve_cons {cell : Cell} {rest : List Cell} {words : List UInt16}
    (resolved : (cell :: rest).mapM assembly.resolve = .ok words) :
    ∃ word remaining, assembly.resolve cell = .ok word ∧
      rest.mapM assembly.resolve = .ok remaining ∧ words = word :: remaining := by
  rw [List.mapM_cons] at resolved
  cases first : assembly.resolve cell with
  | error failure =>
    rw [first] at resolved
    cases resolved
  | ok word =>
    cases others : rest.mapM assembly.resolve with
    | error failure =>
      rw [first, others] at resolved
      cases resolved
    | ok remaining =>
      rw [first, others] at resolved
      cases resolved
      exact ⟨word, remaining, rfl, rfl, rfl⟩

theorem mapM_resolve_ok {cells : List Cell} {words : List UInt16}
    (resolved : cells.mapM assembly.resolve = .ok words) :
    words = cells.map (Cell.resolved assembly.spot) := by
  induction cells generalizing words with
  | nil =>
    cases resolved
    rfl
  | cons cell rest ih =>
    obtain ⟨word, remaining, first, others, rfl⟩ := mapM_resolve_cons resolved
    rw [List.map_cons, ← resolve_ok first, ← ih others]

theorem words_ok {words : List UInt16} (built : assembly.words = .ok words) :
    assembly.problems = #[] ∧ words = assembly.cells.toList.map (Cell.resolved assembly.spot) := by
  unfold Assembly.words at built
  split at built
  · rename_i empty
    exact ⟨Array.isEmpty_iff.mp empty, mapM_resolve_ok built⟩
  · cases built

/-- A program that was built lies in the memory that its words are loaded into. -/
theorem lies_ofProgram {program : List Directive} {words : List UInt16}
    (built : (ofProgram program).words = .ok words) (fits : words.length ≤ memorySize) :
    Lies (.ofWords words.toArray) (ofProgram program).spot 0 program words.length := by
  obtain ⟨problems, resolved⟩ := words_ok built
  have held : (Memory.ofWords words.toArray).Holds 0 words := by
    refine ⟨by omega, ?_⟩
    intro index word found
    obtain ⟨inside, same⟩ := List.getElem?_eq_some_iff.mp found
    rw [Nat.zero_add, Memory.word_ofWords (by omega)]
    simp [Array.getD_eq_getD_getElem?, found]
  have loads : Loads (ofProgram program) (.ofWords words.toArray) (ofProgram program).spot := by
    refine ⟨by rw [← resolved]; exact held, ?_⟩
    intro name address placed
    rw [Assembly.spot, placed, Option.getD_some]
  have grows : Grows (ofProgram program) (ofProgram program) :=
    ⟨List.prefix_refl _, fun _ _ placed => placed, problems⟩
  obtain ⟨_, lies⟩ := settles_program (fun directive _ => loads.settles directive) grows
  have stop : (ofProgram program).address = words.length := by
    rw [resolved, List.length_map]
    exact Array.length_toList.symm
  rw [← stop]
  exact lies

end Assembly

namespace Directive

/-- The labels that a directive places under names of its own. -/
def placed : Directive → List Label
  | .label name => [name]
  | _ => []

/-- The labels that a directive refers to. -/
def referred : Directive → List Label
  | .instruction _ arguments => arguments.filterMap fun
    | .label name => some name
    | .number _ => none
  | _ => []

/-- How many words a directive takes. -/
def size : Directive → Nat
  | .label _ => 0
  | .instruction _ arguments => arguments.length + 1
  | .data words => words.length
  | .print text => 2 * text.length
  | .readLine .. => 16

/-- An opcode has the operands it takes, and no label is made up from an address. -/
def regular : Directive → Bool
  | .instruction opcode arguments => Assembly.arity? opcode = some arguments.length
  | .readLine .. => false
  | _ => true

theorem sum_size_written (text : List UInt16) :
    ((text.map fun unit => op .output [.literal unit.toNat]).map size).sum = 2 * text.length := by
  induction text with
  | nil => rfl
  | cons unit rest ih =>
    rw [List.map_cons, List.map_cons, List.sum_cons, ih, List.length_cons, Nat.mul_succ,
      Nat.add_comm]
    rfl

end Directive

/-- A program ends where the sizes of its directives add up to. -/
theorem Lies.stop_eq {memory : Memory} {spot : Label → Nat} {program : List Directive}
    {start stop : Nat} (lies : Lies memory spot start program stop) :
    stop = start + (program.map Directive.size).sum := by
  induction lies with
  | none start => rfl
  | label _ _ ih => rw [ih, List.map_cons, List.sum_cons, Directive.size, Nat.zero_add]
  | instruction _ _ ih => rw [ih, List.map_cons, List.sum_cons, Directive.size, Nat.add_assoc]
  | data _ _ ih => rw [ih, List.map_cons, List.sum_cons, Directive.size, Nat.add_assoc]
  | print _ _ first second =>
    rw [second, first, Directive.sum_size_written, List.map_cons, List.sum_cons, Nat.add_assoc]
    rfl
  | readLine _ _ first second =>
    rw [second, first, List.map_cons, List.sum_cons, Nat.add_assoc]
    rfl

namespace Assembly

/-- What one assembly has more than another that has no more mistakes. -/
structure Adds (assembly next : Assembly) (size : Nat) (placed referred : List Label) : Prop where
  problems : next.problems = assembly.problems
  address : next.address = assembly.address + size
  labels : ∀ name, name ∈ next.labels ↔ name ∈ assembly.labels ∨ name ∈ placed
  cells : ∀ name, .label name ∈ next.cells.toList →
    .label name ∈ assembly.cells.toList ∨ name ∈ referred

theorem Adds.trans {assembly middle next : Assembly} {size more : Nat}
    {placed referred placed' referred' : List Label}
    (first : Adds assembly middle size placed referred)
    (second : Adds middle next more placed' referred') :
    Adds assembly next (size + more) (placed ++ placed') (referred ++ referred') := by
  refine ⟨second.problems.trans first.problems, ?_, ?_, ?_⟩
  · rw [second.address, first.address, Nat.add_assoc]
  · intro name
    rw [second.labels, first.labels, List.mem_append, or_assoc]
  · intro name member
    rw [List.mem_append, ← or_assoc]
    exact (second.cells name member).imp_left (first.cells name)

theorem adds_emit (assembly : Assembly) (opcode : Number) (arguments : List Argument)
    (counted : arity? opcode = some arguments.length) :
    Adds assembly (assembly.emit opcode arguments) (arguments.length + 1) []
      (Directive.instruction opcode arguments).referred := by
  refine ⟨?_, assembly.address_emit opcode arguments, ?_, ?_⟩
  · simp only [emit, if_pos counted]
  · intro name
    simp only [emit, List.not_mem_nil, or_false]
  · intro name member
    simp only [emit, Array.toList_appendList, Array.toList_push, List.mem_append, List.mem_map,
      List.mem_singleton, reduceCtorEq, or_false] at member
    rcases member with member | ⟨argument, listed, same⟩
    · exact .inl member
    · right
      cases argument with
      | number value => cases same
      | label other =>
        cases same
        exact List.mem_filterMap.mpr ⟨_, listed, rfl⟩

theorem adds_print (assembly : Assembly) (text : List UInt16) :
    Adds assembly (assembly.printUnits text) (2 * text.length) [] [] := by
  induction text generalizing assembly with
  | nil => exact ⟨rfl, rfl, fun name => by simp [printUnits], fun name member => .inl member⟩
  | cons unit rest ih =>
    have first := assembly.adds_emit (.ofNat Opcode.output.code) [.literal unit.toNat] rfl
    have count : 2 * (unit :: rest).length = 1 + 1 + 2 * rest.length := by
      rw [List.length_cons]
      omega
    rw [count]
    exact first.trans (ih _)

theorem adds_add (assembly : Assembly) {directive : Directive} (regular : directive.regular = true)
    (fresh : ∀ name ∈ directive.placed, name ∉ assembly.labels) :
    Adds assembly (assembly.add directive) directive.size directive.placed directive.referred := by
  cases directive with
  | label name =>
    have unplaced : ¬ assembly.labels.contains name = true := by
      rw [← Std.HashMap.mem_iff_contains]
      exact fresh name (List.mem_singleton_self name)
    refine ⟨?_, rfl, ?_, fun _ member => .inl member⟩
    · simp only [add, place, if_neg unplaced]
    · intro other
      simp only [add, place, Std.HashMap.mem_insert, beq_iff_eq, Directive.placed,
        List.mem_singleton]
      rw [or_comm, eq_comm]
  | instruction opcode arguments =>
    exact assembly.adds_emit opcode arguments (of_decide_eq_true regular)
  | data words =>
    refine ⟨rfl, address_data words, fun name => by simp [add, Directive.placed], ?_⟩
    intro name member
    exact .inl (by simpa [add] using member)
  | print text => exact assembly.adds_print text
  | readLine first scratch flag => cases regular

theorem adds_program (assembly : Assembly) {program : List Directive}
    (regular : ∀ directive ∈ program, directive.regular = true)
    (distinct : (program.flatMap Directive.placed).Nodup)
    (fresh : ∀ name ∈ program.flatMap Directive.placed, name ∉ assembly.labels) :
    Adds assembly (program.foldl add assembly) (program.map Directive.size).sum
      (program.flatMap Directive.placed) (program.flatMap Directive.referred) := by
  induction program generalizing assembly with
  | nil => exact ⟨rfl, rfl, fun name => by simp, fun _ member => .inl member⟩
  | cons directive rest ih =>
    rw [List.flatMap_cons] at distinct fresh ⊢
    obtain ⟨_, others, apart⟩ := List.nodup_append.mp distinct
    have first := assembly.adds_add (regular directive (by simp))
      fun name member => fresh name (by simp [member])
    have unplaced : ∀ name ∈ rest.flatMap Directive.placed,
        name ∉ (assembly.add directive).labels := by
      intro name member present
      rcases (first.labels name).mp present with earlier | here
      · exact fresh name (List.mem_append_right _ member) earlier
      · exact apart name here name member rfl
    exact first.trans (ih _ (fun other member => regular other (by simp [member])) others unplaced)

theorem exists_mapM_resolve {assembly : Assembly} {cells : List Cell}
    (known : ∀ name, .label name ∈ cells → name ∈ assembly.labels) :
    ∃ words, cells.mapM assembly.resolve = .ok words := by
  induction cells with
  | nil => exact ⟨[], rfl⟩
  | cons cell rest ih =>
    obtain ⟨words, others⟩ := ih fun name member => known name (by simp [member])
    have here : ∃ word, assembly.resolve cell = .ok word := by
      cases cell with
      | word value => exact ⟨value, rfl⟩
      | label name =>
        have found := Std.HashMap.getElem?_eq_some_getElem (known name (by simp))
        exact ⟨_, by rw [resolve, found]⟩
    obtain ⟨word, first⟩ := here
    exact ⟨word :: words, by rw [List.mapM_cons, first, others]; rfl⟩

/-- A program is built when its labels are distinct and placed and its opcodes have the operands
they take. -/
theorem exists_words {program : List Directive}
    (regular : ∀ directive ∈ program, directive.regular = true)
    (distinct : (program.flatMap Directive.placed).Nodup)
    (known : ∀ name ∈ program.flatMap Directive.referred, name ∈ program.flatMap Directive.placed) :
    ∃ words, (ofProgram program).words = .ok words ∧
      words.length = (program.map Directive.size).sum := by
  have adds := empty.adds_program regular distinct fun name _ present => by
    simp [empty] at present
  have problems : (ofProgram program).problems.isEmpty = true := by
    rw [ofProgram, adds.problems]
    rfl
  have built : ∃ words, (ofProgram program).cells.toList.mapM (ofProgram program).resolve =
      .ok words := by
    apply exists_mapM_resolve
    intro name member
    rcases adds.cells name member with earlier | named
    · cases earlier
    · exact (adds.labels name).mpr (.inr (known name named))
  obtain ⟨words, resolved⟩ := built
  refine ⟨words, by rw [Assembly.words, if_pos problems, resolved], ?_⟩
  rw [mapM_resolve_ok resolved, List.length_map, Array.length_toList]
  exact adds.address.trans (Nat.zero_add _)

end Assembly

end AdventureMachine
