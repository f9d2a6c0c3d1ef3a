import AdventureMachine.Proofs.Conversation

/-! Reading an answer back. The prompt cannot straddle a line end, a title mark or an entry mark, so
a text made of parts without a prompt has none; the first title line is the one that was written;
and the lines below it come apart into the description and the two lists. -/
namespace AdventureMachine

namespace Room

/-- The line that shows a title. -/
def titleLine (title : List Char) : List Char := '=' :: '=' :: ' ' :: (title ++ [' ', '=', '='])

/-- The lines of a text, where every kind of line end counts. -/
def rows (text : List Char) : List (List Char) := text.splitOnP Text.isLineEnd

/-- No line of the text shows a title. -/
def Headless (text : List Char) : Prop := ∀ row ∈ rows text, ∀ title, row ≠ titleLine title

/-- The text is empty or ends with a line feed. -/
def Ended (text : List Char) : Prop := text = [] ∨ ['\n'] <:+ text

/-- The text stops where a line ends. -/
def Finished (text : List Char) : Prop := ∀ last ∈ text.getLast?, Text.isLineEnd last = true

/-- The prompt does not occur in the text. -/
def Promptless (text : List Char) : Prop := ¬ prompt.toList <:+: text

section Prompt

theorem toList_prompt : prompt.toList =
    ['W', 'h', 'a', 't', ' ', 'd', 'o', ' ', 'y', 'o', 'u', ' ', 'd', 'o', '?'] := by decide

theorem prefix_of_prefix_append_cons {part front back : List Char} {separator : Char}
    (foreign : separator ∉ part) (start : part <+: front ++ separator :: back) :
    part <+: front := by
  rw [List.append_cons] at start
  rcases List.prefix_or_prefix_of_prefix start (List.prefix_append _ back) with inside | beyond
  · rcases List.prefix_concat_iff.mp inside with rfl | inside
    · exact absurd (by simp) foreign
    · exact inside
  · exact absurd (beyond.subset (by simp)) foreign

/-- A part without the separator does not straddle it. -/
theorem infix_append_cons {part front back : List Char} {separator : Char}
    (foreign : separator ∉ part) :
    part <:+: front ++ separator :: back ↔ part <:+: front ∨ part <:+: back := by
  constructor
  · intro inside
    induction front with
    | nil =>
      rcases List.infix_cons_iff.mp inside with start | later
      · have begins : part <+: [] ++ separator :: back := start
        exact .inl (prefix_of_prefix_append_cons foreign begins).isInfix
      · exact .inr later
    | cons first rest ih =>
      rcases List.infix_cons_iff.mp inside with start | later
      · have begins : part <+: (first :: rest) ++ separator :: back := start
        exact .inl (prefix_of_prefix_append_cons foreign begins).isInfix
      · exact (ih later).imp_left fun found => found.trans (List.suffix_cons _ _).isInfix
  · rintro (inside | inside)
    · exact inside.trans (List.prefix_append _ _).isInfix
    · exact inside.trans ((List.suffix_cons _ _).trans (List.suffix_append _ _)).isInfix

theorem promptless_append_cons {front back : List Char} {separator : Char}
    (foreign : separator ∉ prompt.toList) :
    Promptless (front ++ separator :: back) ↔ Promptless front ∧ Promptless back := by
  rw [Promptless, infix_append_cons foreign, not_or]
  rfl

theorem promptless_cons {text : List Char} {first : Char} (foreign : first ≠ 'W') :
    Promptless (first :: text) ↔ Promptless text := by
  have apart : ¬ prompt.toList <+: first :: text := by
    rw [toList_prompt, List.cons_prefix_cons]
    exact fun start => foreign start.1.symm
  rw [Promptless, List.infix_cons_iff, not_or, and_iff_right apart]
  rfl

theorem promptless_concat_space {text : List Char} :
    Promptless (text ++ [' ']) ↔ Promptless text := by
  have apart : ¬ prompt.toList <:+ text ++ [' '] := by
    rintro ⟨before, same⟩
    have final := congrArg List.getLast? same
    rw [toList_prompt, List.getLast?_append, List.getLast?_concat] at final
    cases final
  rw [Promptless, List.infix_concat_iff, not_or, and_iff_right apart]
  rfl

theorem Ended.finished {text : List Char} (ended : Ended text) : Finished text := by
  intro last final
  rcases ended with rfl | ⟨before, rfl⟩
  · cases final
  · rw [List.getLast?_concat] at final
    cases final
    decide

theorem Finished.eq_nil_or_concat {text : List Char} (finished : Finished text) :
    text = [] ∨ ∃ front ending, text = front ++ [ending] ∧ Text.isLineEnd ending = true := by
  rcases List.eq_nil_or_concat text with empty | ⟨front, ending, rfl⟩
  · exact .inl empty
  · rw [List.concat_eq_append] at finished ⊢
    exact .inr ⟨front, ending, rfl, finished ending (List.getLast?_concat ..)⟩

/-- The prompt stands on one line. -/
theorem lineEnd_not_mem_prompt {ending : Char} (ends : Text.isLineEnd ending = true) :
    ending ∉ prompt.toList := by
  have single : prompt.toList.all (fun c => !Text.isLineEnd c) = true := by
    rw [toList_prompt]
    decide
  intro member
  have plain := List.all_eq_true.mp single ending member
  rw [ends] at plain
  cases plain

theorem Finished.promptless_append {front back : List Char} (finished : Finished front)
    (first : Promptless front) (second : Promptless back) : Promptless (front ++ back) := by
  rcases finished.eq_nil_or_concat with rfl | ⟨before, ending, rfl, ends⟩
  · exact second
  · have foreign := lineEnd_not_mem_prompt ends
    rw [List.append_assoc, List.singleton_append]
    have earlier := ((promptless_append_cons foreign).mp first).1
    exact (promptless_append_cons foreign).mpr ⟨earlier, second⟩

theorem promptless_of_not_mem {text : List Char} (missing : 'W' ∉ text) : Promptless text := by
  intro inside
  apply missing
  exact inside.subset (by decide)

/-- A finished line before the first prompt. -/
theorem splitAt?_prompt {text : List Char} (ended : ['\n'] <:+ text) (promptless : Promptless text)
    (suffix : List Char) :
    Text.splitAt? prompt.toList (text ++ (prompt.toList ++ suffix)) =
      some (text, prompt.toList ++ suffix) := by
  obtain ⟨before, rfl⟩ := ended
  exact Text.splitAt?_append promptless (by decide) suffix

theorem body_append_prompt {text : List Char} (ended : ['\n'] <:+ text)
    (promptless : Promptless text) : body (text ++ prompt.toList) = text := by
  have split := splitAt?_prompt ended promptless []
  rw [List.append_nil] at split
  rw [body, split]

end Prompt

section Title

theorem title?_titleLine (title : List Char) : title? (titleLine title) = some title := by
  have long : (titleLine title).length = title.length + 6 := by simp [titleLine]
  have front : "== ".toList.isPrefixOf (titleLine title) = true :=
    List.isPrefixOf_iff_prefix.mpr ⟨title ++ [' ', '=', '='], rfl⟩
  have back : " ==".toList.isSuffixOf (titleLine title) = true :=
    List.isSuffixOf_iff_suffix.mpr ⟨'=' :: '=' :: ' ' :: title, rfl⟩
  rw [title?, front, back, long, if_neg (by simp)]
  simp [titleLine]

/-- Only a title line shows a title. -/
theorem eq_titleLine_of_title? {line title : List Char} (shown : title? line = some title) :
    ∃ title, line = titleLine title := by
  rw [title?] at shown
  split at shown
  · cases shown
  · rename_i shape
    simp only [Bool.or_eq_true, decide_eq_true_eq, Bool.not_eq_true', not_or, Nat.not_lt,
      Bool.not_eq_false, List.isPrefixOf_iff_prefix, List.isSuffixOf_iff_suffix] at shape
    obtain ⟨⟨long, rest, rfl⟩, back⟩ := shape
    have marks : "== ".toList = ['=', '=', ' '] := by decide
    have closing : " ==".toList = [' ', '=', '='] := by decide
    rw [marks] at long back ⊢
    rw [closing] at back
    have whole : [' ', '=', '='] <:+ rest := by
      apply List.suffix_of_suffix_length_le back (List.suffix_append _ _)
      simp only [List.length_append, List.length_cons, List.length_nil] at long ⊢
      omega
    obtain ⟨title, rfl⟩ := whole
    exact ⟨title, rfl⟩

theorem title?_eq_none {row : List Char} (plain : ∀ title, row ≠ titleLine title) :
    title? row = none := by
  cases shown : title? row with
  | none => rfl
  | some title =>
    obtain ⟨title, same⟩ := eq_titleLine_of_title? shown
    exact absurd same (plain title)

variable {budget : Nat} {passed line tail rest : List Char} {ending : Char}
  (clean : ∀ c ∈ line, Text.isLineEnd c = false)

include clean

theorem takeWhile_line (closed : ∀ c ∈ tail.head?, Text.isLineEnd c = true) :
    (line ++ tail).takeWhile (fun c => !Text.isLineEnd c) = line := by
  rw [List.takeWhile_append_of_pos (fun c member => by rw [clean c member]; rfl)]
  cases tail with
  | nil => exact List.append_nil line
  | cons ending rest =>
    rw [List.takeWhile_cons, closed ending rfl]
    exact List.append_nil line

theorem findTitle?_go_title (closed : ∀ c ∈ tail.head?, Text.isLineEnd c = true)
    {title : List Char} (shown : title? line = some title) :
    findTitle?.go budget passed (line ++ tail) = some (passed.reverse, title, tail.tail) := by
  unfold findTitle?.go
  simp only [takeWhile_line clean closed, List.drop_left, shown, List.drop_one]

theorem findTitle?_go_plain (ends : Text.isLineEnd ending = true) (plain : title? line = none) :
    findTitle?.go (budget + 1) passed (line ++ ending :: rest) =
      findTitle?.go budget (ending :: (line.reverse ++ passed)) rest := by
  have closed : ∀ c ∈ (ending :: rest).head?, Text.isLineEnd c = true := by
    rintro c ⟨⟩
    exact ends
  conv =>
    lhs
    unfold findTitle?.go
  simp only [takeWhile_line clean closed, List.drop_left, plain]

theorem findTitle?_go_last (plain : title? line = none) :
    findTitle?.go budget passed line = none := by
  have whole : (line ++ []).takeWhile _ = line := takeWhile_line clean nofun
  rw [List.append_nil] at whole
  unfold findTitle?.go
  simp only [whole, plain, List.drop_length]

end Title

theorem rows_append {front : List Char} {ending : Char} (ends : Text.isLineEnd ending = true)
    (back : List Char) : rows (front ++ ending :: back) = rows front ++ rows back :=
  List.splitOnP_append_cons _ _ ends

theorem headless_append {front : List Char} {ending : Char} (ends : Text.isLineEnd ending = true)
    {back : List Char} (first : Headless front) (second : Headless back) :
    Headless (front ++ ending :: back) := by
  intro row member
  rw [rows_append ends] at member
  rcases List.mem_append.mp member with inside | inside
  · exact first row inside
  · exact second row inside

theorem headless_of_head? {text : List Char} (plain : ∀ row ∈ rows text, row.head? ≠ some '=') :
    Headless text := by
  rintro row member title rfl
  exact plain _ member rfl

theorem rows_of_clean {line : List Char} (clean : ∀ c ∈ line, Text.isLineEnd c = false) :
    rows line = [line] :=
  List.splitOnP_eq_singleton clean

/-- A text is one line, or a line, the character that ends it and another text. -/
@[elab_as_elim]
theorem line_induction {motive : List Char → Prop}
    (last : ∀ line, (∀ c ∈ line, Text.isLineEnd c = false) → motive line)
    (ended : ∀ line ending rest, (∀ c ∈ line, Text.isLineEnd c = false) →
      Text.isLineEnd ending = true → motive rest → motive (line ++ ending :: rest))
    (text : List Char) : motive text := by
  induction counted : text.length using Nat.strongRecOn generalizing text with
  | ind size ih =>
    cases found : text.find? Text.isLineEnd with
    | none =>
      apply last
      intro c member
      rw [Bool.eq_false_iff]
      exact List.find?_eq_none.mp found c member
    | some ending =>
      obtain ⟨ends, line, rest, rfl, clean⟩ := List.find?_eq_some_iff_append.mp found
      rw [List.length_append, List.length_cons] at counted
      have shorter : motive rest := ih rest.length (by omega) rest rfl
      exact ended line ending rest (fun c member => by simpa using clean c member) ends shorter

theorem Finished.eq_nil {line : List Char} (finished : Finished line)
    (clean : ∀ c ∈ line, Text.isLineEnd c = false) : line = [] := by
  rcases finished.eq_nil_or_concat with empty | ⟨front, ending, rfl, ends⟩
  · exact empty
  · rw [clean ending (by simp)] at ends
    cases ends

theorem finished_append_cons {line rest : List Char} {ending : Char}
    (ends : Text.isLineEnd ending = true) :
    Finished (line ++ ending :: rest) ↔ Finished rest := by
  rcases List.eq_nil_or_concat rest with rfl | ⟨front, last, rfl⟩
  · simp [Finished, ends]
  · simp [Finished, List.getLast?_cons]

theorem headless_append_cons {line rest : List Char} {ending : Char}
    (clean : ∀ c ∈ line, Text.isLineEnd c = false) (ends : Text.isLineEnd ending = true) :
    Headless (line ++ ending :: rest) ↔ (∀ title, line ≠ titleLine title) ∧ Headless rest := by
  rw [Headless, rows_append ends, rows_of_clean clean]
  exact List.forall_mem_cons

/-- The search for a title passes over finished lines without one. -/
theorem findTitle?_go_append {budget : Nat} (passed : List Char) {front : List Char}
    (text : List Char) (finished : Finished front) (headless : Headless front)
    (enough : front.length ≤ budget) :
    ∃ left, findTitle?.go budget passed (front ++ text) =
      findTitle?.go left (front.reverse ++ passed) text := by
  induction front using line_induction generalizing budget passed with
  | last line clean => exact ⟨budget, by rw [finished.eq_nil clean]; rfl⟩
  | ended line ending rest clean ends ih =>
    rw [finished_append_cons ends] at finished
    obtain ⟨plain, others⟩ := (headless_append_cons clean ends).mp headless
    rw [List.length_append, List.length_cons] at enough
    obtain ⟨budget, rfl⟩ : ∃ less, budget = less + 1 := ⟨budget - 1, by omega⟩
    obtain ⟨left, onward⟩ :=
      ih (ending :: (line.reverse ++ passed)) finished others (by omega : rest.length ≤ budget)
    refine ⟨left, ?_⟩
    rw [List.append_assoc, List.cons_append, findTitle?_go_plain clean ends (title?_eq_none plain),
      onward]
    simp

theorem findTitle?_go_eq_none {budget : Nat} (passed : List Char) {text : List Char}
    (headless : Headless text) (enough : text.length ≤ budget) :
    findTitle?.go budget passed text = none := by
  induction text using line_induction generalizing budget passed with
  | last line clean =>
    rw [Headless, rows_of_clean clean] at headless
    exact findTitle?_go_last clean (title?_eq_none (headless line (List.mem_singleton_self line)))
  | ended line ending rest clean ends ih =>
    obtain ⟨plain, others⟩ := (headless_append_cons clean ends).mp headless
    rw [List.length_append, List.length_cons] at enough
    obtain ⟨budget, rfl⟩ : ∃ less, budget = less + 1 := ⟨budget - 1, by omega⟩
    rw [findTitle?_go_plain clean ends (title?_eq_none plain)]
    exact ih _ others (by omega)

theorem titleLine_clean {title : List Char} (clean : ∀ c ∈ title, Text.isLineEnd c = false) :
    ∀ c ∈ titleLine title, Text.isLineEnd c = false := by
  intro c member
  simp only [titleLine, List.mem_cons, List.mem_append, List.not_mem_nil, or_false] at member
  rcases member with rfl | rfl | rfl | inside | rfl | rfl | rfl
  all_goals first
    | exact clean c inside
    | decide

/-- The first title line of a text stands behind `front`; one character ends it, and `behind`
follows. -/
structure FirstTitle (text front title behind : List Char) : Prop where
  finished : Finished front
  headless : Headless front
  clean : ∀ c ∈ title, Text.isLineEnd c = false
  split : ∃ tail, text = front ++ (titleLine title ++ tail) ∧
    (∀ c ∈ tail.head?, Text.isLineEnd c = true) ∧ behind = tail.tail

theorem firstTitle_append {front title : List Char} (behind : List Char)
    (finished : Finished front) (headless : Headless front)
    (clean : ∀ c ∈ title, Text.isLineEnd c = false) :
    FirstTitle (front ++ (titleLine title ++ '\n' :: behind)) front title behind := by
  refine ⟨finished, headless, clean, '\n' :: behind, rfl, ?_, rfl⟩
  rintro c ⟨⟩
  decide

theorem FirstTitle.findTitle?_eq {text front title behind : List Char}
    (first : FirstTitle text front title behind) :
    findTitle? text = some (front, title, behind) := by
  obtain ⟨tail, rfl, closed, rfl⟩ := first.split
  have enough : front.length ≤ (front ++ (titleLine title ++ tail)).length := by
    rw [List.length_append]
    exact Nat.le_add_right _ _
  obtain ⟨left, onward⟩ := findTitle?_go_append [] _ first.finished first.headless enough
  rw [findTitle?, onward, findTitle?_go_title (titleLine_clean first.clean) closed
    (title?_titleLine title), List.append_nil, List.reverse_reverse]

theorem findTitle?_eq_none {text : List Char} (headless : Headless text) :
    findTitle? text = none :=
  findTitle?_go_eq_none [] headless (Nat.le_refl _)

section Sections

/-- The line of an entry. -/
def entryLine (entry : List Char) : List Char := '-' :: ' ' :: entry

/-- Puts entries in front of their list. -/
def Contents.addAll (contents : Contents) (part : Section) (entries : List (List Char)) :
    Contents :=
  entries.foldr (fun entry rest => rest.add part entry) contents

theorem addAll_items (contents : Contents) (entries : List (List Char)) :
    contents.addAll .items entries =
      { contents with items := entries.map String.ofList ++ contents.items } := by
  induction entries with
  | nil => rfl
  | cons entry rest ih =>
    rw [Contents.addAll, List.foldr_cons, ← Contents.addAll, ih]
    rfl

theorem addAll_exits (contents : Contents) (entries : List (List Char)) :
    contents.addAll .exits entries =
      { contents with exits := entries.map String.ofList ++ contents.exits } := by
  induction entries with
  | nil => rfl
  | cons entry rest ih =>
    rw [Contents.addAll, List.foldr_cons, ← Contents.addAll, ih]
    rfl

/-- An empty line, or the last one, ends a list. -/
theorem sections_of_closed (part : Section) {rest : List (List Char)}
    (closed : ∀ line ∈ rest.head?, line = []) : sections (some part) rest = sections none rest := by
  cases rest with
  | nil => rfl
  | cons line more =>
    obtain rfl := closed line rfl
    rfl

theorem sections_entry (part : Section) (entry : List Char) (rest : List (List Char)) :
    sections (some part) (entryLine entry :: rest) =
      (sections (some part) rest).map (·.add part entry) := by
  rw [entryLine, sections]
  simp only [List.isEmpty_cons, Bool.false_eq_true, ↓reduceIte]
  cases sections (some part) rest <;> rfl

theorem sections_entries (part : Section) (entries : List (List Char)) {rest : List (List Char)}
    (closed : ∀ line ∈ rest.head?, line = []) {contents : Contents}
    (read : sections none rest = .ok contents) :
    sections (some part) (entries.map entryLine ++ rest) = .ok (contents.addAll part entries) := by
  induction entries with
  | nil => exact (sections_of_closed part closed).trans read
  | cons entry others ih =>
    rw [List.map_cons, List.cons_append, sections_entry, ih]
    rfl

theorem sections_header {header : List Char} {part : Section}
    (titled : section? header = some part) (worded : header ≠ []) (rest : List (List Char)) :
    sections none (header :: rest) = sections (some part) rest := by
  rw [sections]
  simp only [List.isEmpty_eq_false_iff.mpr worded, Bool.false_eq_true, ↓reduceIte, titled]

/-- The lines of a list under a header, with the empty line behind it. -/
def listLines (header : List Char) (entries : List (List Char)) : List (List Char) :=
  if entries.isEmpty then [] else header :: (entries.map entryLine ++ [[]])

theorem sections_listLines {header : List Char} {part : Section}
    (titled : section? header = some part) (worded : header ≠ [])
    (entries more : List (List Char)) {contents : Contents}
    (rest : sections none more = .ok contents) :
    sections none (listLines header entries ++ more) = .ok (contents.addAll part entries) := by
  cases entries with
  | nil => exact rest
  | cons entry others =>
    rw [listLines, List.isEmpty_cons, if_neg (by decide), List.cons_append, List.append_assoc,
      sections_header titled worded]
    refine sections_entries part (entry :: others) ?_ rest
    rintro line ⟨⟩
    rfl

theorem lines_entries {entries : List (List Char)} (clean : ∀ entry ∈ entries, '\n' ∉ entry)
    (more : List Char) :
    Text.lines (entries.flatMap (fun entry => entryLine entry ++ ['\n']) ++ more) =
      entries.map entryLine ++ Text.lines more := by
  induction entries with
  | nil => rfl
  | cons entry rest ih =>
    obtain ⟨first, others⟩ := List.forall_mem_cons.mp clean
    have single : '\n' ∉ entryLine entry := by simpa [entryLine] using first
    rw [List.flatMap_cons, List.append_assoc, List.append_assoc, List.singleton_append,
      Text.lines_append, Text.lines_of_clean single, ih others]
    rfl

theorem toList_renderList (header : String) (entries : List String) :
    (World.renderList header entries).toList =
      if entries.isEmpty then []
      else header.toList ++ '\n' :: ((entries.map String.toList).flatMap
        (fun entry => entryLine entry ++ ['\n']) ++ ['\n']) := by
  have newline : "\n".toList = ['\n'] := by decide
  have mark : "- ".toList = ['-', ' '] := by decide
  rw [World.renderList]
  split
  · rfl
  · simp [String.toList_join, List.flatMap_map, entryLine, newline, mark]

theorem lines_renderList {header : String} {entries : List String}
    (single : '\n' ∉ header.toList) (clean : ∀ entry ∈ entries, '\n' ∉ entry.toList)
    (more : List Char) :
    Text.lines ((World.renderList header entries).toList ++ more) =
      listLines header.toList (entries.map String.toList) ++ Text.lines more := by
  rw [toList_renderList, listLines, List.isEmpty_map]
  split
  · rfl
  · have listed : ∀ entry ∈ entries.map String.toList, '\n' ∉ entry := by
      simpa using clean
    have empty : Text.lines ('\n' :: more) = [] :: Text.lines more := Text.lines_append [] more
    simp only [List.append_assoc, List.cons_append, List.nil_append]
    rw [Text.lines_append, Text.lines_of_clean single, lines_entries listed, empty]
    rfl

theorem promptless_renderList {header : String} {entries : List String} {more : List Char}
    (titled : Promptless header.toList) (listed : ∀ entry ∈ entries, Promptless entry.toList)
    (rest : Promptless more) : Promptless ((World.renderList header entries).toList ++ more) := by
  have rows (behind : Promptless ('\n' :: more)) :
      Promptless ((entries.map String.toList).flatMap (fun entry => entryLine entry ++ ['\n']) ++
        '\n' :: more) := by
    induction entries with
    | nil => exact behind
    | cons entry others ih =>
      obtain ⟨first, remaining⟩ := List.forall_mem_cons.mp listed
      rw [List.map_cons, List.flatMap_cons, List.append_assoc, List.append_assoc,
        List.singleton_append, promptless_append_cons (by decide), entryLine,
        promptless_cons (by decide), promptless_cons (by decide)]
      exact ⟨first, ih remaining⟩
  rw [toList_renderList]
  split
  · exact rest
  · rw [List.append_assoc, List.cons_append, List.append_assoc, List.singleton_append,
      promptless_append_cons (by decide)]
    exact ⟨titled, rows ((promptless_cons (by decide)).mpr rest)⟩

theorem ended_renderList (header : String) (entries : List String) :
    Ended (World.renderList header entries).toList := by
  rw [toList_renderList]
  split
  · exact .inl rfl
  · right
    exact (List.suffix_append _ _).trans ((List.suffix_cons _ _).trans (List.suffix_append _ _))

end Sections

end Room

namespace World

open Room (Promptless Headless Ended titleLine listLines)

/-- What a player is told about a place. -/
def Place.room (place : Place) : Room where
  title := place.title
  description := place.description
  items := place.items
  exits := place.exits.map Exit.name

/-- A description of the place can be read back. -/
structure Place.Legible (place : Place) : Prop where
  title : ∀ c ∈ place.title.toList, Text.isLineEnd c = false
  lines : ∀ line ∈ Text.lines place.description.toList, ¬ [':'] <:+ line
  ending : ¬ ['\n'] <:+ place.description.toList
  items : ∀ item ∈ place.items, '\n' ∉ item.toList
  exits : ∀ exit ∈ place.exits, '\n' ∉ exit.name.toList
  promptless : ∀ text ∈ place.title :: place.description ::
    (place.items ++ place.exits.map Exit.name), Promptless text.toList

/-- The text below the title of a place, up to the prompt. -/
def Place.below (place : Place) : List Char :=
  place.description.toList ++ '\n' :: '\n' ::
    ((renderList Room.itemsHeader place.items).toList ++
      (renderList (exitsHeader place.exits.length) (place.exits.map Exit.name)).toList)

theorem Place.toList_render (place : Place) :
    place.render.toList =
      titleLine place.title.toList ++ '\n' :: (place.below ++ Room.prompt.toList) := by
  have opening : "== ".toList = ['=', '=', ' '] := by decide
  have closing : " ==\n".toList = [' ', '=', '=', '\n'] := by decide
  have gap : "\n\n".toList = ['\n', '\n'] := by decide
  simp [Place.render, Place.below, titleLine, opening, closing, gap]

theorem not_mem_exitsHeader {c : Char} (count : Nat) (digit : c.isDigit = false)
    (one : c ∉ "There is 1 exit:".toList) (front : c ∉ "There are ".toList)
    (back : c ∉ " exits:".toList) : c ∉ (exitsHeader count).toList := by
  rw [exitsHeader]
  split
  · exact one
  · simp only [String.toList_append, List.mem_append, not_or]
    refine ⟨⟨front, ?_⟩, back⟩
    intro member
    rw [Text.isDigit_of_mem_decimal member] at digit
    cases digit

theorem exitsHeader_shape (count : Nat) :
    "There".toList <+: (exitsHeader count).toList ∧ [':'] <:+ (exitsHeader count).toList := by
  rw [exitsHeader]
  split
  · decide
  · simp only [String.toList_append, List.append_assoc]
    constructor
    · exact List.IsPrefix.trans (by decide) (List.prefix_append _ _)
    · exact List.IsSuffix.trans (by decide)
        ((List.suffix_append _ _).trans (List.suffix_append _ _))

theorem section?_exitsHeader (count : Nat) :
    Room.section? (exitsHeader count).toList = some .exits := by
  obtain ⟨front, back⟩ := exitsHeader_shape count
  have other : (exitsHeader count).toList ≠ Room.itemsHeader.toList := by
    intro same
    rw [same] at front
    exact absurd front (by decide)
  have colon : ":".toList = [':'] := by decide
  rw [Room.section?, if_neg other, List.isPrefixOf_iff_prefix.mpr front, colon,
    List.isSuffixOf_iff_suffix.mpr back]
  rfl

/-- The lines of both lists, and the empty one at the end. -/
def Place.listed (place : Place) : List (List Char) :=
  listLines Room.itemsHeader.toList (place.items.map String.toList) ++
    (listLines (exitsHeader place.exits.length).toList
      ((place.exits.map Exit.name).map String.toList) ++ [[]])

/-- The lines below the title. -/
theorem Place.Legible.lines_below {place : Place} (legible : place.Legible) :
    Text.lines place.below = Text.lines place.description.toList ++ [] :: place.listed := by
  have names : ∀ name ∈ place.exits.map Exit.name, '\n' ∉ name.toList := by
    simpa using legible.exits
  have header : '\n' ∉ (exitsHeader place.exits.length).toList :=
    not_mem_exitsHeader _ (by decide) (by decide) (by decide) (by decide)
  have exits := Room.lines_renderList header names []
  have plain : '\n' ∉ Room.itemsHeader.toList := by decide
  have items := Room.lines_renderList plain legible.items
    (renderList (exitsHeader place.exits.length) (place.exits.map Exit.name)).toList
  rw [List.append_nil] at exits
  rw [Place.below, Text.lines_append, ← List.nil_append ('\n' :: _), Text.lines_append, items,
    exits]
  rfl

theorem Place.sections_listed (place : Place) :
    Room.sections none place.listed = .ok ⟨place.items, place.exits.map Exit.name⟩ := by
  have plain (texts : List String) : (texts.map String.toList).map String.ofList = texts := by
    rw [List.map_map]
    exact (List.map_congr_left fun text _ => String.ofList_toList).trans (List.map_id' texts)
  have worded : (exitsHeader place.exits.length).toList ≠ [] := by
    intro empty
    have front := (exitsHeader_shape place.exits.length).1
    rw [empty] at front
    exact absurd front (by decide)
  have last : Room.sections none [[]] = .ok ⟨[], []⟩ := rfl
  have exits := Room.sections_listLines (section?_exitsHeader place.exits.length) worded
    ((place.exits.map Exit.name).map String.toList) [[]] last
  have titled : Room.section? Room.itemsHeader.toList = some .items := by decide
  have items := Room.sections_listLines titled (by decide) (place.items.map String.toList) _ exits
  rw [Place.listed, items, Room.addAll_items, Room.addAll_exits, plain, plain, List.append_nil,
    List.append_nil]

theorem endsDescription_eq_true {line : List Char} (colon : [':'] <:+ line) :
    Room.endsDescription line = true := by
  have mark : ":".toList = [':'] := by decide
  rw [Room.endsDescription, mark]
  exact List.isSuffixOf_iff_suffix.mpr colon

theorem endsDescription_eq_false {line : List Char} (plain : ¬ [':'] <:+ line) :
    Room.endsDescription line = false := by
  have mark : ":".toList = [':'] := by decide
  rw [Room.endsDescription, mark, Bool.eq_false_iff]
  exact fun ends => plain (List.isSuffixOf_iff_suffix.mp ends)

/-- A list begins with a line that ends the description; without one, an empty line is left. -/
theorem Place.takeWhile_listed (place : Place) :
    place.listed.takeWhile (fun line => !Room.endsDescription line) = [] ∨
      place.listed = [[]] := by
  have opened (header : List Char) (colon : [':'] <:+ header) (more : List (List Char)) :
      (header :: more).takeWhile (fun line => !Room.endsDescription line) = [] := by
    rw [List.takeWhile_cons, endsDescription_eq_true colon]
    rfl
  rw [Place.listed]
  cases place.items with
  | cons item items => exact .inl (opened _ (by decide) _)
  | nil =>
    cases place.exits with
    | cons exit exits => exact .inl (opened _ (exitsHeader_shape _).2 _)
    | nil => exact .inr rfl

/-- The description and the lists are told apart. -/
theorem Place.Legible.read_below {place : Place} (legible : place.Legible) :
    let lines := Text.lines place.below
    let description := lines.takeWhile fun line => !Room.endsDescription line
    Text.stripNewlines (Text.unlines description) = place.description.toList ∧
      Room.sections none (lines.drop description.length) =
        .ok ⟨place.items, place.exits.map Exit.name⟩ := by
  intro lines description
  have plain : ∀ line ∈ Text.lines place.description.toList ++ [[]],
      (!Room.endsDescription line) = true := by
    intro line member
    rw [Bool.not_eq_true']
    rcases List.mem_append.mp member with inside | empty
    · exact endsDescription_eq_false (legible.lines line inside)
    · rw [List.mem_singleton.mp empty]
      decide
  have whole : lines = (Text.lines place.description.toList ++ [[]]) ++ place.listed := by
    rw [List.append_assoc]
    exact legible.lines_below
  have gap : Text.stripNewlines (Text.unlines (Text.lines place.description.toList ++ [[]])) =
      place.description.toList := by
    rw [Text.unlines_append (Text.lines_ne_nil _) (by simp), Text.unlines_lines]
    exact (Text.stripNewlines_append _).trans (Text.stripNewlines_of_clean legible.ending)
  have taken : description = (Text.lines place.description.toList ++ [[]]) ++
      place.listed.takeWhile fun line => !Room.endsDescription line := by
    rw [← List.takeWhile_append_of_pos plain, ← whole]
  rcases place.takeWhile_listed with header | bare
  · rw [header, List.append_nil] at taken
    refine ⟨taken ▸ gap, ?_⟩
    rw [taken, whole, List.drop_left]
    exact place.sections_listed
  · have rest : ([[]] : List (List Char)).takeWhile (fun line => !Room.endsDescription line) =
        [[]] := by decide
    rw [bare, rest] at taken
    have none : Room.sections none [] = .ok ⟨place.items, place.exits.map Exit.name⟩ := by
      rw [← place.sections_listed, bare]
      rfl
    refine ⟨?_, ?_⟩
    · rw [taken, Text.unlines_append (by simp) (by simp)]
      exact (Text.stripNewlines_append _).trans gap
    · rw [whole, bare, ← taken, List.drop_length]
      exact none

theorem promptless_titleLine {title : List Char} (promptless : Promptless title) :
    Promptless (titleLine title) := by
  have marked : titleLine title = '=' :: '=' :: ' ' :: ((title ++ [' ']) ++ '=' :: ['=']) := by
    simp [titleLine]
  rw [marked, Room.promptless_cons (by decide), Room.promptless_cons (by decide),
    Room.promptless_cons (by decide), Room.promptless_append_cons (by decide),
    Room.promptless_concat_space]
  exact ⟨promptless, Room.promptless_of_not_mem (by decide)⟩

theorem Place.ended_below (place : Place) : ['\n'] <:+ place.below := by
  rw [Place.below]
  refine List.IsSuffix.trans ?_ ((List.suffix_cons _ _).trans (List.suffix_append _ _))
  rcases Room.ended_renderList (exitsHeader place.exits.length) (place.exits.map Exit.name) with
    none | exits
  · rw [none, List.append_nil]
    rcases Room.ended_renderList Room.itemsHeader place.items with bare | items
    · exact bare ▸ List.suffix_refl _
    · exact items.trans (List.suffix_cons _ _)
  · exact exits.trans ((List.suffix_append _ _).trans (List.suffix_cons _ _))

theorem Place.Legible.promptless_below {place : Place} (legible : place.Legible) :
    Promptless place.below := by
  have header : Promptless (exitsHeader place.exits.length).toList :=
    Room.promptless_of_not_mem
      (not_mem_exitsHeader _ (by decide) (by decide) (by decide) (by decide))
  have names : ∀ name ∈ place.exits.map Exit.name, Promptless name.toList :=
    fun name listed => legible.promptless name
      (List.mem_cons_of_mem _ (List.mem_cons_of_mem _ (List.mem_append_right _ listed)))
  have exits := Room.promptless_renderList header names
    (Room.promptless_of_not_mem List.not_mem_nil)
  rw [List.append_nil] at exits
  rw [Place.below, Room.promptless_append_cons (by decide), Room.promptless_cons (by decide)]
  refine ⟨legible.promptless _ (by simp), Room.promptless_renderList ?_ ?_ exits⟩
  · exact Room.promptless_of_not_mem (by decide)
  · intro item listed
    exact legible.promptless item (by simp [listed])

theorem Place.Legible.promptless_shown {place : Place} (legible : place.Legible) :
    Promptless (titleLine place.title.toList ++ '\n' :: place.below) := by
  rw [Room.promptless_append_cons (by decide)]
  exact ⟨promptless_titleLine (legible.promptless _ (by simp)), legible.promptless_below⟩

theorem Place.ended_shown (place : Place) (prelude : List Char) :
    ['\n'] <:+ prelude ++ (titleLine place.title.toList ++ '\n' :: place.below) :=
  place.ended_below.trans ((List.suffix_cons _ _).trans
    ((List.suffix_append _ _).trans (List.suffix_append _ _)))

/-- A place that is shown behind finished lines without a title is read back. -/
theorem Place.Legible.parse_of_body {place : Place} (legible : place.Legible) {text prelude : String}
    (finished : Room.Finished prelude.toList) (headless : Headless prelude.toList)
    (shown : Room.body text.toList =
      prelude.toList ++ (titleLine place.title.toList ++ '\n' :: place.below)) :
    Room.parse text = .ok ⟨prelude, some place.room⟩ := by
  have first := Room.firstTitle_append place.below finished headless legible.title
  obtain ⟨description, contents⟩ := legible.read_below
  simp only [Room.parse, shown, first.findTitle?_eq, description, contents, String.ofList_toList]
  rfl

/-- A text that can stand before the description of a place. -/
structure Preface (text : String) : Prop where
  ended : Ended text.toList
  headless : Headless text.toList
  promptless : Promptless text.toList

/-- What an answer tells its reader. -/
def Answer.response (answer : Answer) : Response :=
  ⟨answer.prelude, if answer.describes then some answer.place.room else none⟩

/-- An answer can be told from what follows it, and read. -/
structure Answer.Legible (answer : Answer) : Prop where
  preface : Preface answer.prelude
  place : answer.describes = true → answer.place.Legible
  worded : answer.describes = false → answer.prelude ≠ ""

/-- The text of an answer up to the prompt. -/
def Answer.body (answer : Answer) : List Char :=
  answer.prelude.toList ++
    if answer.describes then titleLine answer.place.title.toList ++ '\n' :: answer.place.below
    else []

theorem Answer.toList_text (answer : Answer) :
    answer.text.toList = answer.body ++ Room.prompt.toList := by
  rw [Answer.text, Answer.body, String.toList_append]
  cases answer.describes with
  | true => simp [Place.toList_render]
  | false => simp

theorem Answer.Legible.ended_body {answer : Answer} (legible : answer.Legible) :
    ['\n'] <:+ answer.body := by
  rw [Answer.body]
  cases describes : answer.describes with
  | true =>
    rw [if_pos rfl]
    exact answer.place.ended_shown _
  | false =>
    rw [if_neg (by decide), List.append_nil]
    rcases legible.preface.ended with empty | ended
    · exact absurd (String.toList_eq_nil_iff.mp empty) (legible.worded describes)
    · exact ended

theorem Answer.Legible.promptless_body {answer : Answer} (legible : answer.Legible) :
    Promptless answer.body := by
  rw [Answer.body]
  apply legible.preface.ended.finished.promptless_append legible.preface.promptless
  cases describes : answer.describes with
  | true =>
    rw [if_pos rfl]
    exact (legible.place describes).promptless_shown
  | false => exact Room.promptless_of_not_mem List.not_mem_nil

/-- An answer ends at the first prompt, whatever is said next. -/
theorem Answer.Legible.splitAt?_text {answer : Answer} (legible : answer.Legible)
    (suffix : List Char) :
    Text.splitAt? Room.prompt.toList (answer.text.toList ++ suffix) =
      some (answer.body, Room.prompt.toList ++ suffix) := by
  rw [answer.toList_text, List.append_assoc]
  exact Room.splitAt?_prompt legible.ended_body legible.promptless_body suffix

/-- The text of an answer is read as what the answer tells. -/
theorem Answer.Legible.parse_text {answer : Answer} (legible : answer.Legible) :
    Room.parse answer.text = .ok answer.response := by
  have read : Room.body answer.text.toList = answer.body := by
    rw [answer.toList_text]
    exact Room.body_append_prompt legible.ended_body legible.promptless_body
  rw [Answer.body] at read
  rw [Answer.response]
  cases describes : answer.describes with
  | true =>
    rw [describes, if_pos rfl] at read
    exact (legible.place describes).parse_of_body legible.preface.ended.finished
      legible.preface.headless read
  | false =>
    rw [describes, if_neg (by decide), List.append_nil] at read
    simp only [Room.parse, read, Bool.false_eq_true, ↓reduceIte,
      Room.findTitle?_eq_none legible.preface.headless, String.ofList_toList]

/-- Reading undoes describing: whatever finished lines without a title stand in front, and whatever
follows, a described place is read as what a player is told about it. -/
theorem parse_undoes_render (place : Place) (legible : place.Legible) (prelude suffix : String)
    (finished : Room.Finished prelude.toList) (headless : Headless prelude.toList)
    (promptless : Promptless prelude.toList) :
    Room.parse (prelude ++ place.render ++ suffix) = .ok ⟨prelude, some place.room⟩ := by
  apply legible.parse_of_body finished headless
  have quiet := finished.promptless_append promptless legible.promptless_shown
  have cut := Room.splitAt?_prompt (place.ended_shown prelude.toList) quiet suffix.toList
  have text : (prelude ++ place.render ++ suffix).toList =
      prelude.toList ++ (titleLine place.title.toList ++ '\n' :: place.below) ++
        (Room.prompt.toList ++ suffix.toList) := by
    simp [place.toList_render]
  rw [Room.body, text, cut]

/-- A place without a description, whose title and entries look like marks. -/
def crossing : Place where
  id := "crossing"
  title := "a == b =="
  description := ""
  items := ["", "- sign:"]
  exits := [⟨"There:", "crossing", ""⟩]
  deeds := []

/-- The prelude ends with a carriage return, and what follows would be read as a room itself. -/
theorem parse_undoes_render_crossing :
    crossing.Legible ∧ Room.Finished "so: == it ==\r".toList ∧
      Headless "so: == it ==\r".toList ∧ Promptless "so: == it ==\r".toList ∧
      Room.parse ("so: == it ==\r" ++ crossing.render ++ "\n== c ==\nd:\n") =
        .ok ⟨"so: == it ==\r", some ⟨"a == b ==", "", ["", "- sign:"], ["There:"]⟩⟩ := by
  have plain : crossing.title.toList.all (fun c => Text.isLineEnd c == false) = true := by decide
  have legible : crossing.Legible :=
    ⟨fun c member => by simpa using List.all_eq_true.mp plain c member, by decide, by decide,
      by decide, by decide, fun text member => Room.promptless_of_not_mem (by revert text; decide)⟩
  have finished : Room.Finished "so: == it ==\r".toList := by
    rintro last ⟨⟩
    decide
  have headless : Headless "so: == it ==\r".toList := Room.headless_of_head? (by decide)
  have promptless : Promptless "so: == it ==\r".toList := Room.promptless_of_not_mem (by decide)
  exact ⟨legible, finished, headless, promptless,
    parse_undoes_render crossing legible _ _ finished headless promptless⟩

end World

end AdventureMachine
