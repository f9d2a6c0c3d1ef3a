import AdventureMachine.Proofs.LineText

/-! Sweeps over memory words. A line covers the operation that starts at its address, or one word of
data, and never reaches past the end. So the lines of a sweep tile the words from its start on. Each
of them tells the words it covers and with them where the next one starts, so two arrays with the
same listing agree wherever it reaches. -/
namespace AdventureMachine

namespace Listing

/-- An operation stands at an index with all its operands behind it. -/
structure Starts (words : Array UInt16) (opcode : Opcode) (index : Nat) : Prop where
  whole : index + 1 + opcode.arity ≤ words.size
  encoded : (words.getD index 0).toNat = opcode.code

/-- The raw operands of the operation at an index. -/
def operandsAt (words : Array UInt16) (opcode : Opcode) (index : Nat) : List UInt16 :=
  (List.range opcode.arity).map fun position => words.getD (index + 1 + position) 0

/-- An operation as it is listed at an index. -/
def operationLine (words : Array UInt16) (opcode : Opcode) (index : Nat) : Line :=
  ⟨.ofNat index, opcode.listed ((operandsAt words opcode index).map UInt16.toNat), 1 + opcode.arity⟩

/-- A word as it is listed as data. -/
def dataLine (words : Array UInt16) (index : Nat) : Line :=
  ⟨.ofNat index, dataText (words.getD index 0), 1⟩

variable {words other : Array UInt16} {opcode : Opcode} {index start : Nat}

theorem getD_eq (inside : index < words.size) : words.getD index 0 = words[index] := by
  simp [Array.getD, inside]

theorem line_of_starts (starts : Starts words opcode index) :
    line words (.ofNat index) = operationLine words opcode index := by
  have whole := starts.whole
  have inside : index < words.size := by omega
  have encoded : words[index].toNat = opcode.code := getD_eq inside ▸ starts.encoded
  simp only [line, Number.index?_ofNat inside, Fin.getElem_fin, encoded, Opcode.ofCode?_code,
    if_pos whole, Instruction.text_eq, Instruction.opcode_decode, Instruction.operands_decode]
  rfl

theorem line_of_data (inside : index < words.size) (data : ∀ opcode, ¬ Starts words opcode index) :
    line words (.ofNat index) = dataLine words index := by
  simp only [line, Number.index?_ofNat inside, Fin.getElem_fin]
  rw [dataLine, getD_eq inside]
  split
  · rfl
  · rename_i opcode found
    refine if_neg fun whole => data opcode ⟨whole, ?_⟩
    rw [getD_eq inside, Opcode.code_eq_of_ofCode? found]

/-- A line inside the words shows the operation that starts there, or one word of data. -/
theorem line_cases (inside : index < words.size) :
    (∃ opcode, Starts words opcode index ∧
      line words (.ofNat index) = operationLine words opcode index) ∨
    ((∀ opcode, ¬ Starts words opcode index) ∧
      line words (.ofNat index) = dataLine words index) := by
  by_cases operation : ∃ opcode, Starts words opcode index
  · obtain ⟨opcode, starts⟩ := operation
    exact .inl ⟨opcode, starts, line_of_starts starts⟩
  · have data : ∀ opcode, ¬ Starts words opcode index := fun opcode starts =>
      operation ⟨opcode, starts⟩
    exact .inr ⟨data, line_of_data inside data⟩

/-- A line covers at least one word and ends inside the words. -/
theorem line_inside (inside : index < words.size) :
    0 < (line words (.ofNat index)).length ∧
      index + (line words (.ofNat index)).length ≤ words.size := by
  rcases line_cases inside with ⟨opcode, starts, shown⟩ | ⟨_, shown⟩
  · have whole := starts.whole
    simp only [shown, operationLine]
    omega
  · rw [shown, dataLine]
    exact ⟨Nat.one_pos, inside⟩

theorem line_address (address : Number) : (line words address).address = address := by
  unfold line
  split
  · rfl
  · simp only
    split
    · rfl
    · split <;> rfl

/-- Both arrays hold the same words from one index up to another. -/
def Agree (words other : Array UInt16) (first last : Nat) : Prop :=
  ∀ index, first ≤ index → index < last → words.getD index 0 = other.getD index 0

theorem agree_of_operands (encoded : words.getD index 0 = other.getD index 0)
    (operands : operandsAt words opcode index = operandsAt other opcode index) :
    Agree words other index (index + (1 + opcode.arity)) := by
  intro place first last
  rcases Nat.eq_or_lt_of_le first with rfl | behind
  · exact encoded
  · have position : place - (index + 1) ∈ List.range opcode.arity := by
      rw [List.mem_range]
      omega
    have same := List.map_inj_left.mp operands _ position
    rwa [show index + 1 + (place - (index + 1)) = place by omega] at same

/-- The text of a line tells how many words it covers, and all of them. -/
theorem agree_of_text (inside : index < words.size) (within : index < other.size)
    (same : (line words (.ofNat index)).text = (line other (.ofNat index)).text) :
    (line words (.ofNat index)).length = (line other (.ofNat index)).length ∧
      Agree words other index (index + (line words (.ofNat index)).length) := by
  rcases line_cases inside with ⟨opcode, starts, shown⟩ | ⟨_, shown⟩ <;>
    rcases line_cases within with ⟨opcode', starts', shown'⟩ | ⟨_, shown'⟩
  · rw [shown, shown'] at same ⊢
    obtain ⟨rfl, operands⟩ := listed_injective (by simp [operandsAt]) (by simp [operandsAt]) same
    have encoded : words.getD index 0 = other.getD index 0 :=
      UInt16.toNat_inj.mp (starts.encoded.trans starts'.encoded.symm)
    have equal := (List.map_inj_right fun _ _ => UInt16.toNat_inj.mp).mp operands
    exact ⟨rfl, agree_of_operands encoded equal⟩
  · rw [shown, shown'] at same
    exact absurd same.symm (dataText_ne_listed _ _ _)
  · rw [shown, shown'] at same
    exact absurd same (dataText_ne_listed _ _ _)
  · rw [shown, shown'] at same ⊢
    refine ⟨rfl, ?_⟩
    intro place first last
    obtain rfl : place = index := Nat.le_antisymm (Nat.le_of_lt_succ last) first
    exact dataText_injective same

theorem lines_of_lt (inside : start < words.size) (count : Nat) :
    lines words (.ofNat start) (count + 1) = line words (.ofNat start) ::
      lines words (.ofNat (start + (line words (.ofNat start)).length)) count := by
  have below : (Number.ofNat start).below words.size = true :=
    decide_eq_true (Int.ofNat_lt.mpr inside)
  rw [lines, if_pos below]
  rfl

theorem lines_of_le (beyond : words.size ≤ start) (count : Nat) :
    lines words (.ofNat start) count = [] := by
  cases count with
  | zero => rfl
  | succ count =>
    have outside : ¬ (Number.ofNat start).below words.size = true := by
      simp only [Number.below, decide_eq_true_eq]
      exact fun less => Nat.not_lt_of_le beyond (Int.ofNat_lt.mp less)
    rw [lines, if_neg outside]

theorem lines_eq_nil_iff {count : Nat} :
    lines words (.ofNat start) count = [] ↔ count = 0 ∨ words.size ≤ start := by
  cases count with
  | zero => simp [lines]
  | succ count =>
    rcases Nat.lt_or_ge start words.size with inside | beyond
    · simp [lines_of_lt inside, inside]
    · simp [lines_of_le beyond, beyond]

/-- The lines follow one another without gap or overlap from one address to another. -/
inductive Tiles : Nat → List Line → Nat → Prop where
  | done (stop : Nat) : Tiles stop [] stop
  | line {start stop : Nat} {first : Line} {rest : List Line} (here : first.address = .ofNat start)
      (covers : 0 < first.length) (behind : Tiles (start + first.length) rest stop) :
      Tiles start (first :: rest) stop

theorem tiles_lines (inside : start ≤ words.size) {count : Nat}
    (enough : words.size ≤ start + count) :
    Tiles start (lines words (.ofNat start) count) words.size := by
  induction count generalizing start with
  | zero =>
    obtain rfl : start = words.size := Nat.le_antisymm inside enough
    exact .done _
  | succ count ih =>
    rcases Nat.eq_or_lt_of_le inside with rfl | less
    · rw [lines_of_le (Nat.le_refl _)]
      exact .done _
    · obtain ⟨covers, ends⟩ := line_inside less
      rw [lines_of_lt less]
      exact .line (line_address _) covers (ih ends (by omega))

/-- Sweeps that show the same texts went over the same words. -/
theorem agree_of_texts (same : words.size = other.size) {count : Nat}
    (enough : words.size ≤ start + count)
    (texts : (lines words (.ofNat start) count).map Line.text =
      (lines other (.ofNat start) count).map Line.text) :
    Agree words other start words.size := by
  induction count generalizing start with
  | zero =>
    intro index first last
    omega
  | succ count ih =>
    intro index first last
    have less : start < words.size := Nat.lt_of_le_of_lt first last
    have within : start < other.size := same ▸ less
    rw [lines_of_lt less, lines_of_lt within, List.map_cons, List.map_cons] at texts
    obtain ⟨head, tail⟩ := List.cons.inj texts
    obtain ⟨length, here⟩ := agree_of_text less within head
    rcases Nat.lt_or_ge index (start + (line words (.ofNat start)).length) with covered | later
    · exact here index first covered
    · obtain ⟨covers, _⟩ := line_inside less
      rw [← length] at tail
      exact ih (by omega) tail index later last

/-- A line with a whole address whose text is a single line. -/
structure Line.Printable (line : Line) : Prop where
  numbered : ∃ address : Nat, line.address = .ofNat address
  single : '\n' ∉ line.text.toList

theorem line_printable (inside : index < words.size) :
    (line words (.ofNat index)).Printable := by
  refine ⟨⟨index, line_address _⟩, ?_⟩
  rcases line_cases inside with ⟨opcode, _, shown⟩ | ⟨_, shown⟩
  · rw [shown]
    exact newline_not_mem_listed _ _
  · rw [shown]
    exact newline_not_mem_dataText _

theorem lines_printable {count : Nat} :
    ∀ line ∈ lines words (.ofNat start) count, line.Printable := by
  induction count generalizing start with
  | zero => exact fun _ member => absurd member List.not_mem_nil
  | succ count ih =>
    rcases Nat.lt_or_ge start words.size with inside | beyond
    · rw [lines_of_lt inside]
      exact List.forall_mem_cons.mpr ⟨line_printable inside, ih⟩
    · rw [lines_of_le beyond]
      exact fun _ member => absurd member List.not_mem_nil

/-- The text stands behind the first colon of a printed line. -/
theorem Line.Printable.toList_render {line : Line} (printable : line.Printable) :
    ∃ front, (∀ c ∈ front, c ≠ ':' ∧ c ≠ '\n') ∧
      line.render.toList = front ++ ':' :: ' ' :: line.text.toList := by
  obtain ⟨⟨address, numbered⟩, _⟩ := printable
  refine ⟨List.replicate (5 - (Number.ofNat address).decimal.length) '0' ++
    Number.decimalDigits address, ?_, ?_⟩
  · intro c member
    rcases List.mem_append.mp member with zero | digit
    · rw [List.eq_of_mem_replicate zero]
      decide
    · exact (Number.plain_of_mem_decimalDigits digit).ne
  · have digits : (Number.ofNat address).decimal.toList = Number.decimalDigits address :=
      String.toList_ofList
    simp only [render, numbered, String.toList_append, String.toList_ofList, digits]
    simp

theorem Line.Printable.single_render {line : Line} (printable : line.Printable) :
    '\n' ∉ line.render.toList := by
  obtain ⟨front, clean, written⟩ := printable.toList_render
  rw [written]
  intro member
  simp only [List.mem_append, List.mem_cons] at member
  rcases member with inside | mark | blank | text
  · exact (clean _ inside).2 rfl
  · exact absurd mark (by decide)
  · exact absurd blank (by decide)
  · exact printable.single text

theorem Line.Printable.text_eq {line other : Line} (printable : line.Printable)
    (another : other.Printable) (same : line.render.toList = other.render.toList) :
    line.text = other.text := by
  have behind {line : Line} (printable : line.Printable) :
      line.render.toList.dropWhile (· ≠ ':') = ':' :: ' ' :: line.text.toList := by
    obtain ⟨front, clean, written⟩ := printable.toList_render
    rw [written, List.dropWhile_append_of_pos fun c member => by simpa using (clean c member).1]
    rfl
  have texts := behind printable
  rw [same, behind another] at texts
  exact (String.toList_inj.mp (List.cons.inj (List.cons.inj texts).2).2).symm

theorem texts_of_renders {front back : List Line} (first : ∀ line ∈ front, line.Printable)
    (second : ∀ line ∈ back, line.Printable)
    (same : (front.map fun line => line.render.toList) = back.map fun line => line.render.toList) :
    front.map Line.text = back.map Line.text := by
  induction front generalizing back with
  | nil =>
    rw [List.map_nil, List.nil_eq, List.map_eq_nil_iff] at same
    rw [same]
  | cons line rest ih =>
    obtain ⟨other, others, rfl, here, behind⟩ := List.map_eq_cons_iff.mp same.symm
    obtain ⟨printable, more⟩ := List.forall_mem_cons.mp first
    obtain ⟨another, last⟩ := List.forall_mem_cons.mp second
    rw [List.map_cons, List.map_cons, printable.text_eq another here.symm,
      ih more last behind.symm]

/-- Cut at its line ends, a printed listing gives back the printed lines. -/
theorem splitOn_render {lines : List Line} (printable : ∀ line ∈ lines, line.Printable)
    (some : lines ≠ []) :
    (render lines).toList.splitOn '\n' = lines.map fun line => line.render.toList := by
  rw [render, String.toList_intercalate, List.map_map]
  refine List.splitOn_intercalate '\n' ?_ (by simpa using some)
  intro text member
  obtain ⟨line, listed, rfl⟩ := List.mem_map.mp member
  exact (printable line listed).single_render

/-- A printed listing tells the texts of its lines. -/
theorem texts_of_render {front back : List Line} (first : ∀ line ∈ front, line.Printable)
    (second : ∀ line ∈ back, line.Printable) (either : front = [] ↔ back = [])
    (same : render front = render back) : front.map Line.text = back.map Line.text := by
  by_cases none : front = []
  · rw [none, either.mp none]
  · have cut := splitOn_render first none
    rw [same, splitOn_render second (mt either.mpr none)] at cut
    exact texts_of_renders first second cut.symm

/-- What a listing shows of a line: its address and its text. -/
def Line.entry (line : Line) : Number × String := (line.address, line.text)

theorem getElem?_eq_of_agree (same : words.size = other.size)
    (agree : Agree words other start words.size) (address : Nat) (behind : start ≤ address) :
    words[address]? = other[address]? := by
  rcases Nat.lt_or_ge address words.size with inside | beyond
  · have equal := agree address behind inside
    rw [getD_eq inside, getD_eq (same ▸ inside)] at equal
    rw [Array.getElem?_eq_getElem inside, Array.getElem?_eq_getElem (same ▸ inside), equal]
  · rw [Array.getElem?_eq_none beyond, Array.getElem?_eq_none (same ▸ beyond)]

/-- A listing up to the end of the words loses nothing. Its lines tile the words from its start to
their end, and another array of the same size whose listing has the same addresses and texts holds
the same words there. The listing as it is printed tells as much. -/
theorem listing_lossless {words other : Array UInt16} {start : Nat}
    (same : words.size = other.size) (inside : start ≤ words.size) :
    let listing := lines words (.ofNat start) words.size
    let another := lines other (.ofNat start) words.size
    Tiles start listing words.size ∧
    (listing.map Line.entry = another.map Line.entry →
      ∀ address, start ≤ address → words[address]? = other[address]?) ∧
    (render listing = render another →
      ∀ address, start ≤ address → words[address]? = other[address]?) := by
  intro listing another
  have told (texts : listing.map Line.text = another.map Line.text) :
      ∀ address, start ≤ address → words[address]? = other[address]? :=
    getElem?_eq_of_agree same (agree_of_texts same (Nat.le_add_left _ _) texts)
  refine ⟨tiles_lines inside (Nat.le_add_left _ _), ?_, ?_⟩
  · intro entries
    apply told
    have texts := congrArg (List.map Prod.snd) entries
    rwa [List.map_map, List.map_map] at texts
  · intro printed
    apply told
    apply texts_of_render lines_printable lines_printable ?_ printed
    rw [lines_eq_nil_iff, lines_eq_nil_iff, same]

/-- Two arrays that differ before the third word only, where the listing starts. It ends in an `add`
that is cut off and so listed as data. -/
theorem listing_lossless_cutOff :
    let words : Array UInt16 := #[19, 65, 9, 32768, 40000, 4, 21, 9, 1]
    let other : Array UInt16 := #[7, 7, 9, 32768, 40000, 4, 21, 9, 1]
    words.size = other.size ∧ 2 ≤ words.size ∧
      Tiles 2 (lines words (.ofNat 2) words.size) words.size ∧
      ∀ address, 2 ≤ address → words[address]? = other[address]? := by
  intro words other
  obtain ⟨tiles, told, _⟩ :=
    @listing_lossless words other 2 rfl (by decide)
  exact ⟨rfl, by decide, tiles, told (by decide)⟩

end Listing

end AdventureMachine
