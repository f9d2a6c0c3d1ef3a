import AdventureMachine.Proofs.RoomText
import Mathlib.Data.List.DropRight

/-! The form of a response, told without its reader: the part before the prompt, the first title
line, the description below it, and then blank lines and blocks, each a header with its entries up
to a blank line or the end. The reader accepts exactly this form, drops no line of it, and otherwise
names the first line that breaks it. -/
namespace AdventureMachine.Room

section Outcome

variable {α β : Type} {change : α → β} {outcome : Except Error α}

theorem map_eq_error_iff {error : Error} :
    outcome.map change = .error error ↔ outcome = .error error := by
  cases outcome <;> simp [Except.map]

theorem map_eq_ok_iff {result : β} :
    outcome.map change = .ok result ↔ ∃ value, outcome = .ok value ∧ change value = result := by
  cases outcome <;> simp [Except.map]

end Outcome

section Body

/-- The part of a text before its first prompt, or all of a text without one. -/
inductive BeforePrompt (text : List Char) : List Char → Prop
  | all (promptless : Promptless text) : BeforePrompt text text
  | first {body rest : List Char} (split : text = body ++ (prompt.toList ++ rest))
      (least : ∀ front back, text = front ++ (prompt.toList ++ back) →
        body.length ≤ front.length) : BeforePrompt text body

theorem beforePrompt_body (text : List Char) : BeforePrompt text (body text) := by
  rw [body, Text.splitAt?]
  cases found : Text.splitAt?.go prompt.toList [] text with
  | none => exact .all (Text.splitAt?_go_eq_none [] found)
  | some cut =>
    obtain ⟨before, behind⟩ := cut
    obtain ⟨front, rfl, split, ⟨rest, rfl⟩, least⟩ := Text.splitAt?_go_eq_some [] found
    refine .first split ?_
    intro earlier back same
    exact least earlier _ same (List.prefix_append _ _)

end Body

section Title

/-- A text without title lines, or the first one of them. -/
theorem headless_or_firstTitle (text : List Char) :
    Headless text ∨ ∃ front title behind, FirstTitle text front title behind := by
  have cleanTitle {title : List Char} (clean : ∀ c ∈ titleLine title, Text.isLineEnd c = false) :
      ∀ c ∈ title, Text.isLineEnd c = false :=
    fun c member => clean c (by simp [titleLine, member])
  induction text using line_induction with
  | last line clean =>
    by_cases shown : ∃ title, line = titleLine title
    · obtain ⟨title, rfl⟩ := shown
      exact .inr ⟨[], title, [], by simp [Finished], by simp [Headless, rows, titleLine],
        cleanTitle clean, [], by simp, by simp, rfl⟩
    · left
      rw [Headless, rows_of_clean clean]
      simpa using shown
  | ended line ending rest clean ends ih =>
    by_cases shown : ∃ title, line = titleLine title
    · obtain ⟨title, rfl⟩ := shown
      refine .inr ⟨[], title, rest, by simp [Finished], by simp [Headless, rows, titleLine],
        cleanTitle clean, ending :: rest, rfl, ?_, rfl⟩
      rintro c ⟨⟩
      exact ends
    · have plain : ∀ title, line ≠ titleLine title := by simpa using shown
      rcases ih with headless | ⟨front, title, behind, first⟩
      · exact .inl ((headless_append_cons clean ends).mpr ⟨plain, headless⟩)
      · obtain ⟨tail, rfl, closed, rfl⟩ := first.split
        exact .inr ⟨line ++ ending :: front, title, tail.tail,
          (finished_append_cons ends).mpr first.finished,
          (headless_append_cons clean ends).mpr ⟨plain, first.headless⟩, first.clean, tail,
          by simp, closed, rfl⟩

end Title

section Blocks

/-- The lines that open a section. -/
def Section.Heads : Section → List Char → Prop
  | .items, line => line = itemsHeader.toList
  | .exits, line => "There".toList <+: line ∧ [':'] <:+ line

instance (part : Section) (line : List Char) : Decidable (part.Heads line) :=
  match part with
  | .items => inferInstanceAs (Decidable (line = _))
  | .exits => inferInstanceAs (Decidable (_ ∧ _))

theorem section?_eq_some_iff {line : List Char} {part : Section} : section? line = some part ↔
    part.Heads line := by
  have colon : ":".toList = [':'] := by decide
  rw [section?, colon]
  by_cases items : line = itemsHeader.toList
  · subst items
    cases part <;> decide
  · rw [if_neg items]
    cases part with
    | items =>
      refine iff_of_false ?_ items
      split <;> simp
    | exits =>
      rw [Section.Heads, ← List.isPrefixOf_iff_prefix, ← List.isSuffixOf_iff_suffix,
        ← Bool.and_eq_true]
      split
      · exact iff_of_true rfl ‹_›
      · exact iff_of_false (by simp) ‹_›

theorem Section.Heads.ne_nil {part : Section} {line : List Char} (heads : part.Heads line) :
    line ≠ [] := by
  rintro rfl
  cases part <;> exact absurd heads (by decide)

/-- A header with its entries. -/
structure Block where
  part : Section
  header : List Char
  entries : List (List Char)

/-- The lines of a block. -/
def Block.lines (block : Block) : List (List Char) := block.header :: block.entries.map entryLine

/-- The lines are blank ones and those of the blocks, where a block lasts up to a blank line or the
end. -/
inductive Listed : List (List Char) → List Block → Prop
  | done : Listed [] []
  | blank {lines : List (List Char)} {blocks : List Block} (more : Listed lines blocks) :
      Listed ([] :: lines) blocks
  | block {lines : List (List Char)} {blocks : List Block} (block : Block)
      (heads : block.part.Heads block.header) (closed : ∀ line ∈ lines.head?, line = [])
      (more : Listed lines blocks) : Listed (block.lines ++ lines) (block :: blocks)

/-- The entries of one kind of section, in order. -/
def entriesOf (part : Section) (blocks : List Block) : List String :=
  ((blocks.filter (·.part = part)).flatMap Block.entries).map String.ofList

/-- What is listed in the blocks. -/
def contentsOf (blocks : List Block) : Contents := ⟨entriesOf .items blocks, entriesOf .exits blocks⟩

theorem contentsOf_cons (block : Block) (blocks : List Block) :
    contentsOf (block :: blocks) = (contentsOf blocks).addAll block.part block.entries := by
  obtain ⟨part, header, entries⟩ := block
  cases part with
  | items => simp [addAll_items, contentsOf, entriesOf]
  | exits => simp [addAll_exits, contentsOf, entriesOf]

theorem Listed.sections_eq {lines : List (List Char)} {blocks : List Block}
    (listed : Listed lines blocks) : sections none lines = .ok (contentsOf blocks) := by
  induction listed with
  | done => rfl
  | blank more ih => exact ih
  | block block heads closed more ih =>
    rw [Block.lines, List.cons_append, sections_header (section?_eq_some_iff.mpr heads) heads.ne_nil,
      contentsOf_cons]
    exact sections_entries block.part block.entries closed ih

/-- No line is lost: those that are not blank belong to a block. -/
theorem Listed.filter_eq {lines : List (List Char)} {blocks : List Block}
    (listed : Listed lines blocks) : lines.filter (· ≠ []) = blocks.flatMap Block.lines := by
  induction listed with
  | done => rfl
  | blank more ih => simpa using ih
  | block block heads closed more ih =>
    have entries : (block.entries.map entryLine).filter (· ≠ []) = block.entries.map entryLine := by
      rw [List.filter_eq_self]
      simp [entryLine]
    rw [List.filter_append, ih, List.flatMap_cons, Block.lines, List.filter_cons_of_pos (by
      simpa using heads.ne_nil), entries]

/-- The lines below a header of the given section: its entries, and then further blocks. -/
def Lists (part : Section) (lines : List (List Char)) (contents : Contents) : Prop :=
  ∃ entries rest blocks, lines = entries.map entryLine ++ rest ∧
    (∀ line ∈ rest.head?, line = []) ∧ Listed rest blocks ∧
      contents = (contentsOf blocks).addAll part entries

theorem sections_malformed (part : Section) {line : List Char} (worded : line ≠ [])
    (other : ∀ entry, line ≠ entryLine entry) (rest : List (List Char)) :
    sections (some part) (line :: rest) = .error (.malformedEntry (.ofList line)) := by
  rw [sections]
  · simp only [List.isEmpty_eq_false_iff.mpr worded, Bool.false_eq_true, ↓reduceIte]
  · exact other

theorem sections_unknown {line : List Char} (worded : line ≠ []) (untitled : section? line = none)
    (rest : List (List Char)) :
    sections none (line :: rest) = .error (.unknownSection (.ofList line)) := by
  rw [sections]
  simp only [List.isEmpty_eq_false_iff.mpr worded, Bool.false_eq_true, ↓reduceIte, untitled]

/-- What is read has the form of blocks, also from the middle of one. -/
theorem listed_of_sections {lines : List (List Char)} {contents : Contents} :
    (sections none lines = .ok contents →
      ∃ blocks, Listed lines blocks ∧ contents = contentsOf blocks) ∧
    ∀ part, sections (some part) lines = .ok contents → Lists part lines contents := by
  induction lines generalizing contents with
  | nil =>
    refine ⟨?_, fun part => ?_⟩
    · rintro ⟨⟩
      exact ⟨[], .done, rfl⟩
    · rintro ⟨⟩
      exact ⟨[], [], [], rfl, nofun, .done, rfl⟩
  | cons line rest ih =>
    by_cases empty : line = []
    · subst empty
      refine ⟨fun read => ?_, fun part read => ?_⟩
      · obtain ⟨blocks, listed, same⟩ := ih.1 read
        exact ⟨blocks, .blank listed, same⟩
      · obtain ⟨blocks, listed, same⟩ := ih.1 read
        refine ⟨[], [] :: rest, blocks, rfl, ?_, .blank listed, same⟩
        rintro line ⟨⟩
        rfl
    · refine ⟨fun read => ?_, fun part read => ?_⟩
      · cases titled : section? line with
        | none =>
          rw [sections_unknown empty titled] at read
          cases read
        | some part =>
          rw [sections_header titled empty] at read
          obtain ⟨entries, more, blocks, rfl, closed, listed, rfl⟩ := ih.2 part read
          have heads := section?_eq_some_iff.mp titled
          exact ⟨⟨part, line, entries⟩ :: blocks, .block ⟨part, line, entries⟩ heads closed listed,
            (contentsOf_cons ⟨part, line, entries⟩ blocks).symm⟩
      · by_cases listing : ∃ entry, line = entryLine entry
        · obtain ⟨entry, rfl⟩ := listing
          rw [sections_entry, map_eq_ok_iff] at read
          obtain ⟨others, below, rfl⟩ := read
          obtain ⟨entries, more, blocks, rfl, closed, listed, rfl⟩ := ih.2 part below
          exact ⟨entry :: entries, more, blocks, rfl, closed, listed, rfl⟩
        · rw [sections_malformed part empty (by simpa using listing)] at read
          cases read

theorem sections_eq_ok_iff {lines : List (List Char)} {contents : Contents} :
    sections none lines = .ok contents ↔
      ∃ blocks, Listed lines blocks ∧ contents = contentsOf blocks := by
  refine ⟨listed_of_sections.1, ?_⟩
  rintro ⟨blocks, listed, rfl⟩
  exact listed.sections_eq

/-- The error about a line: in a list it is no entry, anywhere else no header. -/
def complaint (listing : Bool) (line : List Char) : Error :=
  if listing then .malformedEntry (.ofList line) else .unknownSection (.ofList line)

/-- A line is read, and those behind it go on from there, or it ends the reading. -/
theorem sections_cons (current : Option Section) (line : List Char) :
    (∃ next change, next.isSome = !line.isEmpty ∧
      ∀ rest, sections current (line :: rest) = (sections next rest).map change) ∨
    ∀ rest, sections current (line :: rest) = .error (complaint current.isSome line) := by
  by_cases empty : line = []
  · subst empty
    refine .inl ⟨none, id, rfl, fun rest => ?_⟩
    rw [Except.map_id]
    rfl
  · have worded : (!line.isEmpty) = true := by simpa using empty
    cases current with
    | none =>
      cases titled : section? line with
      | none => exact .inr (sections_unknown empty titled)
      | some part =>
        refine .inl ⟨some part, id, worded.symm, fun rest => ?_⟩
        rw [sections_header titled empty, Except.map_id]
        rfl
    | some part =>
      by_cases listing : ∃ entry, line = entryLine entry
      · obtain ⟨entry, rfl⟩ := listing
        exact .inl ⟨some part, (·.add part entry), worded.symm, sections_entry part entry⟩
      · exact .inr (sections_malformed part empty (by simpa using listing))

/-- Whether a list is still open behind some lines. -/
def listingAfter (current : Option Section) (lines : List (List Char)) : Bool :=
  (lines.getLast?.map fun line => !line.isEmpty).getD current.isSome

/-- A failure is about the first line that can not be read where it stands. -/
theorem exists_of_sections_error {current : Option Section} {lines : List (List Char)}
    {error : Error} (failed : sections current lines = .error error) :
    ∃ good line rest, lines = good ++ line :: rest ∧
      (∃ contents, sections current good = .ok contents) ∧
      sections current (good ++ [line]) = .error error ∧
      error = complaint (listingAfter current good) line := by
  induction lines generalizing current with
  | nil => cases failed
  | cons line rest ih =>
    rcases sections_cons current line with ⟨next, change, listing, onward⟩ | stops
    · rw [onward, map_eq_error_iff] at failed
      obtain ⟨good, bad, more, rfl, ⟨contents, read⟩, broken, rfl⟩ := ih failed
      refine ⟨line :: good, bad, more, rfl, ⟨change contents, ?_⟩, ?_, ?_⟩
      · rw [onward, read]
        rfl
      · rw [List.cons_append, onward, map_eq_error_iff]
        exact broken
      · rw [listingAfter, listingAfter, List.getLast?_cons]
        cases good.getLast? <;> simp [listing]
    · rw [stops] at failed
      cases failed
      exact ⟨[], line, rest, rfl, ⟨⟨[], []⟩, rfl⟩, stops [], rfl⟩

/-- Lines behind one that can not be read do not mend it. -/
theorem sections_error_append {current : Option Section} {front : List (List Char)} {error : Error}
    (failed : sections current front = .error error) (back : List (List Char)) :
    sections current (front ++ back) = .error error := by
  induction front generalizing current with
  | nil => cases failed
  | cons line rest ih =>
    rcases sections_cons current line with ⟨next, change, -, onward⟩ | stops
    · rw [onward, map_eq_error_iff] at failed
      rw [List.cons_append, onward, map_eq_error_iff]
      exact ih failed
    · rw [stops] at failed
      cases failed
      exact stops _

/-- The form breaks at a line: the prefixes that have it are those of the lines in front. The error
tells whether an entry or a header was due. -/
def BreaksAt (lines : List (List Char)) (error : Error) : Prop :=
  ∃ good line rest, lines = good ++ line :: rest ∧
    (∀ front, front <+: lines → ((∃ blocks, Listed front blocks) ↔ front <+: good)) ∧
    error = if good.getLast?.getD [] = [] then .unknownSection (.ofList line)
      else .malformedEntry (.ofList line)

theorem breaksAt_of_error {lines : List (List Char)} {error : Error}
    (failed : sections none lines = .error error) : BreaksAt lines error := by
  obtain ⟨good, line, rest, rfl, ⟨contents, read⟩, broken, rfl⟩ := exists_of_sections_error failed
  refine ⟨good, line, rest, rfl, fun front start => ⟨?_, ?_⟩, ?_⟩
  · rintro ⟨blocks, listed⟩
    rcases List.prefix_or_prefix_of_prefix start (List.prefix_append good _) with within | beyond
    · exact within
    · obtain ⟨more, rfl⟩ := beyond
      cases more with
      | nil => exact (List.append_nil good).symm ▸ List.prefix_rfl
      | cons next others =>
        -- the line that breaks the form is read before the prefix is over
        obtain ⟨rfl, -⟩ := List.cons_prefix_cons.mp (List.prefix_append_right_inj good |>.mp start)
        have stuck := sections_error_append broken others
        rw [List.append_assoc, List.singleton_append, listed.sections_eq] at stuck
        cases stuck
  · rintro ⟨back, rfl⟩
    cases shown : sections none front with
    | ok some =>
      obtain ⟨blocks, listed, -⟩ := sections_eq_ok_iff.mp shown
      exact ⟨blocks, listed⟩
    | error cause =>
      rw [sections_error_append shown back] at read
      cases read
  · rcases List.eq_nil_or_concat good with rfl | ⟨front, last, rfl⟩
    · rfl
    · rw [List.concat_eq_append]
      cases last <;> simp [listingAfter, complaint]

end Blocks

section Description

/-- The lines of the description, and those from the first on that ends with a colon. -/
structure Described (lines described remaining : List (List Char)) : Prop where
  split : lines = described ++ remaining
  plain : ∀ line ∈ described, ¬ [':'] <:+ line
  longest : ∀ line ∈ remaining.head?, [':'] <:+ line

theorem endsDescription_iff {line : List Char} : endsDescription line = true ↔ [':'] <:+ line := by
  have mark : ":".toList = [':'] := by decide
  rw [endsDescription, mark, List.isSuffixOf_iff_suffix]

theorem described_takeWhile (lines : List (List Char)) :
    let described := lines.takeWhile fun line => !endsDescription line
    Described lines described (lines.drop described.length) := by
  intro described
  have rest : lines.drop described.length = lines.dropWhile fun line => !endsDescription line := by
    have whole : described ++ _ = lines := List.takeWhile_append_dropWhile
    nth_rewrite 1 [← whole]
    exact List.drop_left
  rw [rest]
  refine ⟨List.takeWhile_append_dropWhile.symm, fun line member => ?_, fun line first => ?_⟩
  · have plain := List.mem_takeWhile_imp member
    rwa [Bool.not_eq_true', Bool.eq_false_iff, ne_eq, endsDescription_iff] at plain
  · have ends := List.head?_dropWhile_not (fun line => !endsDescription line) lines
    rw [first] at ends
    exact endsDescription_iff.mp (by simpa using ends)

end Description

/-- The room that is read below a title line. -/
theorem parse_of_firstTitle {text : String} {front title behind : List Char}
    (first : FirstTitle (body text.toList) front title behind) :
    ∃ described remaining, Described (behind.splitOn '\n') described remaining ∧
      parse text = (sections none remaining).map fun contents => ⟨.ofList front, some
        { title := .ofList title
          description := .ofList ((['\n'].intercalate described).rdropWhile (· = '\n'))
          items := contents.items
          exits := contents.exits }⟩ := by
  have cut : behind.splitOn '\n' = Text.lines behind := (Text.lines_eq behind).symm
  rw [cut]
  refine ⟨_, _, described_takeWhile (Text.lines behind), ?_⟩
  simp only [parse, first.findTitle?_eq, Text.unlines_eq]
  cases sections none _ <;> rfl

/-- The reader accepts exactly the form of a response. -/
theorem parse_follows_grammar (text : String) :
    ∃ body, BeforePrompt text.toList body ∧
      ((∃ prelude, parse text = .ok ⟨prelude, none⟩) ↔ Headless body) ∧
      (Headless body → parse text = .ok ⟨.ofList body, none⟩) ∧
      (¬ Headless body → ∃ front title behind described remaining,
        FirstTitle body front title behind ∧
        Described (behind.splitOn '\n') described remaining ∧
        ((∃ response, parse text = .ok response) ↔ ∃ blocks, Listed remaining blocks) ∧
        (∀ blocks, Listed remaining blocks →
          remaining.filter (· ≠ []) = blocks.flatMap Block.lines ∧
          parse text = .ok ⟨.ofList front, some
            { title := .ofList title
              description := .ofList ((['\n'].intercalate described).rdropWhile (· = '\n'))
              items := entriesOf .items blocks
              exits := entriesOf .exits blocks }⟩) ∧
        ∀ error, parse text = .error error → BreaksAt remaining error) := by
  have bare : Headless (body text.toList) →
      parse text = .ok ⟨.ofList (body text.toList), none⟩ := by
    intro headless
    rw [parse, findTitle?_eq_none headless]
  refine ⟨body text.toList, beforePrompt_body _, ⟨?_, fun headless => ⟨_, bare headless⟩⟩, bare, ?_⟩
  · rintro ⟨prelude, read⟩
    rcases headless_or_firstTitle (body text.toList) with headless | ⟨front, title, behind, first⟩
    · exact headless
    · obtain ⟨described, remaining, -, same⟩ := parse_of_firstTitle first
      rw [same, map_eq_ok_iff] at read
      obtain ⟨contents, -, ⟨⟩⟩ := read
  · intro titled
    obtain headless | ⟨front, title, behind, first⟩ := headless_or_firstTitle (body text.toList)
    · exact absurd headless titled
    obtain ⟨described, remaining, shape, same⟩ := parse_of_firstTitle first
    refine ⟨front, title, behind, described, remaining, first, shape, ⟨?_, ?_⟩, ?_, ?_⟩
    · rintro ⟨response, read⟩
      rw [same, map_eq_ok_iff] at read
      obtain ⟨contents, below, -⟩ := read
      obtain ⟨blocks, listed, -⟩ := sections_eq_ok_iff.mp below
      exact ⟨blocks, listed⟩
    · rintro ⟨blocks, listed⟩
      exact ⟨_, by rw [same, listed.sections_eq]; rfl⟩
    · intro blocks listed
      refine ⟨listed.filter_eq, ?_⟩
      rw [same, listed.sections_eq]
      rfl
    · intro error failed
      rw [same, map_eq_error_iff] at failed
      exact breaksAt_of_error failed

end AdventureMachine.Room
