import AdventureMachine.Transport.Buffered

/-! What is known of endpoints from outside: the answers they give, the bytes they still hold, and
the bytes they were given. Carriage returns are skipped one read at a time. -/
namespace AdventureMachine

variable {σ σ' τ τ' : Type}

namespace ByteSource

variable [ByteSource σ] [ByteSource σ']

/-- So many reads in a row answer with a carriage return and lead from one source to the other. -/
inductive Skips : Nat → σ → σ → Prop where
  | none (source : σ) : Skips 0 source source
  | one {count : Nat} {source rest last : σ}
      (answer : readByte source = (.ok (some carriageReturn), rest))
      (more : Skips count rest last) : Skips (count + 1) source last

/-- Behind its leading carriage returns the source answers with `answer` and leaves `rest`. -/
def Answers (source : σ) (answer : Except Error (Option UInt8)) (rest : σ) : Prop :=
  answer ≠ .ok (some carriageReturn) ∧
    ∃ count middle, Skips count source middle ∧ readByte middle = (answer, rest)

theorem readVisible_of_return {source rest : σ}
    (answer : readByte source = (.ok (some carriageReturn), rest)) :
    readVisible source = readVisible rest := by
  rw [readVisible]
  split
  · rename_i byte left found
    rw [found] at answer
    cases answer
    simp only [↓reduceIte]
  · rename_i other
    exact absurd answer (other carriageReturn rest)

theorem readVisible_of_ne {source : σ}
    (visible : (readByte source).1 ≠ .ok (some carriageReturn)) :
    readVisible source = readByte source := by
  rw [readVisible]
  split
  · rename_i byte left found
    have different : byte ≠ carriageReturn := by
      intro same
      exact visible (by rw [found, same])
    rw [if_neg different, found]
  · rfl

theorem Skips.readVisible_eq {count : Nat} {source rest : σ} (skips : Skips count source rest) :
    readVisible source = readVisible rest := by
  induction skips with
  | none _ => rfl
  | one answer _ ih => exact (readVisible_of_return answer).trans ih

theorem readVisible_answers (source : σ) :
    Answers source (readVisible source).1 (readVisible source).2 := by
  fun_induction readVisible source with
  | case1 source rest answer smaller ih =>
    obtain ⟨visible, count, middle, skips, last⟩ := ih
    exact ⟨visible, count + 1, middle, .one answer skips, last⟩
  | case2 source byte rest answer different =>
    exact ⟨by simpa using different, 0, source, .none source, answer⟩
  | case3 source other =>
    refine ⟨?_, 0, source, .none source, rfl⟩
    intro same
    exact other carriageReturn (readByte source).2 (Prod.ext same rfl)

/-- The loop that looks for a visible byte finds the first answer that is no carriage return. -/
theorem readVisible_eq_iff {source rest : σ} {answer : Except Error (Option UInt8)} :
    readVisible source = (answer, rest) ↔ Answers source answer rest := by
  constructor
  · intro found
    simpa only [found] using readVisible_answers source
  · rintro ⟨visible, count, middle, skips, last⟩
    rw [skips.readVisible_eq, readVisible_of_ne (by rw [last]; exact visible), last]

/-- The answer to the read behind `count` others. -/
def answerAt (source : σ) : Nat → Except Error (Option UInt8)
  | 0 => (readByte source).1
  | count + 1 => answerAt (readByte source).2 count

/-- Two sources that answer every sequence of reads alike. -/
def Alike (source : σ) (other : σ') : Prop := ∀ count, answerAt source count = answerAt other count

theorem Alike.answer {source : σ} {other : σ'} (alike : Alike source other) :
    (readByte source).1 = (readByte other).1 := alike 0

theorem Alike.rest {source : σ} {other : σ'} (alike : Alike source other) :
    Alike (readByte source).2 (readByte other).2 := fun count => alike (count + 1)

theorem Alike.skips {source rest : σ} {other : σ'} {count : Nat} (alike : Alike source other)
    (skips : Skips count source rest) : ∃ left, Skips count other left ∧ Alike rest left := by
  induction skips generalizing other with
  | none source => exact ⟨other, .none other, alike⟩
  | @one count source next last answer _ ih =>
    have following : Alike next (readByte other).2 := by
      simpa only [answer] using alike.rest
    obtain ⟨left, skipped, related⟩ := ih following
    have same : (readByte other).1 = .ok (some carriageReturn) := by
      rw [← alike.answer, answer]
    exact ⟨left, .one (Prod.ext same rfl) skipped, related⟩

/-- Sources that answer alike skip the same carriage returns and then answer alike again. -/
theorem Alike.readVisible {source : σ} {other : σ'} (alike : Alike source other) :
    (readVisible source).1 = (readVisible other).1 ∧
      Alike (readVisible source).2 (readVisible other).2 := by
  obtain ⟨visible, count, middle, skips, last⟩ := readVisible_answers source
  obtain ⟨left, skipped, related⟩ := alike.skips skips
  have same : (readByte left).1 = (ByteSource.readVisible source).1 := by
    rw [← related.answer, last]
  have found : ByteSource.readVisible other = readByte left := by
    rw [skipped.readVisible_eq, readVisible_of_ne (by rw [same]; exact visible)]
  rw [found]
  exact ⟨same.symm, by simpa only [last] using related.rest⟩

/-- What a source holds: a byte is read off the front, and an answer without one takes nothing. -/
structure Content (σ : Type) [ByteSource σ] where
  upcoming : σ → Bytes
  taken : ∀ {source byte rest}, readByte source = (.ok (some byte), rest) →
    upcoming source = byte :: upcoming rest
  kept : ∀ {source answer rest}, readByte source = (answer, rest) →
    (∀ byte, answer ≠ .ok (some byte)) → upcoming rest = upcoming source

theorem Skips.upcoming {count : Nat} {source rest : σ} (skips : Skips count source rest)
    (content : Content σ) :
    content.upcoming source = List.replicate count carriageReturn ++ content.upcoming rest := by
  induction skips with
  | none _ => simp
  | one answer _ ih => rw [content.taken answer, ih, List.replicate_succ, List.cons_append]

end ByteSource

namespace ByteSink

variable [ByteSink τ] [ByteSink τ']

/-- The answer to a write behind those of `earlier`. -/
def answerTo (sink : τ) (earlier : Bytes) (byte : UInt8) : Except Error Unit :=
  match earlier with
  | [] => (writeByte sink byte).1
  | first :: rest => answerTo (writeByte sink first).2 rest byte

/-- Two sinks that answer every sequence of writes alike. -/
def Alike (sink : τ) (other : τ') : Prop :=
  ∀ earlier byte, answerTo sink earlier byte = answerTo other earlier byte

theorem Alike.answer {sink : τ} {other : τ'} (alike : Alike sink other) (byte : UInt8) :
    (writeByte sink byte).1 = (writeByte other byte).1 := alike [] byte

theorem Alike.rest {sink : τ} {other : τ'} (alike : Alike sink other) (byte : UInt8) :
    Alike (writeByte sink byte).2 (writeByte other byte).2 :=
  fun earlier last => alike (byte :: earlier) last

/-- What a sink was given: an accepted byte comes last, and a refused one does not arrive. -/
structure Record (τ : Type) [ByteSink τ] where
  delivered : τ → Bytes
  accepted : ∀ {sink byte rest}, writeByte sink byte = (.ok (), rest) →
    delivered rest = delivered sink ++ [byte]
  refused : ∀ {sink byte error rest}, writeByte sink byte = (.error error, rest) →
    delivered rest = delivered sink

end ByteSink

theorem ByteBuffer.at?_eq (buffer : ByteBuffer) (index : Int) :
    buffer.at? index = if 0 ≤ index then buffer.toList[index.toNat]? else none := by
  unfold at? toList
  by_cases start : 0 ≤ index
  · have same : index < buffer.used ↔ index.toNat < buffer.used := by omega
    by_cases inside : index.toNat < buffer.used
    · simp [start, same, inside]
    · simp only [start, same, inside, and_false, ↓reduceIte, List.getElem?_take]
  · simp [start]

namespace BufferedInput

/-- The bytes behind the cursor; none are in front of a buffer. -/
def upcoming (input : BufferedInput) : Bytes :=
  if 0 ≤ input.cursor then input.buffer.toList.drop input.cursor.toNat else []

theorem at?_cursor (input : BufferedInput) :
    input.buffer.at? input.cursor = input.upcoming.head? := by
  rw [ByteBuffer.at?_eq, upcoming]
  split
  · rw [List.head?_drop]
  · rfl

theorem readByte_of_cons {input : BufferedInput} {byte : UInt8} {rest : Bytes}
    (held : input.upcoming = byte :: rest) :
    ByteSource.readByte input = (.ok (some byte), { input with cursor := input.cursor + 1 }) ∧
      upcoming { input with cursor := input.cursor + 1 } = rest := by
  have found : input.buffer.at? input.cursor = some byte := by rw [at?_cursor, held]; rfl
  refine ⟨by simp only [ByteSource.readByte, read, found], ?_⟩
  unfold upcoming at held ⊢
  split at held
  · rename_i start
    have next : (input.cursor + 1).toNat = input.cursor.toNat + 1 := by omega
    rw [if_pos (by simp only; omega), next, ← List.tail_drop, held, List.tail_cons]
  · cases held

theorem readByte_of_nil {input : BufferedInput} (held : input.upcoming = []) :
    ByteSource.readByte input = (.ok none, input) := by
  have missing : input.buffer.at? input.cursor = none := by rw [at?_cursor, held]; rfl
  simp only [ByteSource.readByte, read, missing]

/-- Queued input holds the bytes behind its cursor. -/
def content : ByteSource.Content BufferedInput where
  upcoming := upcoming
  taken := by
    intro input byte rest answer
    cases held : input.upcoming with
    | nil =>
      rw [readByte_of_nil held] at answer
      cases answer
    | cons first others =>
      obtain ⟨found, left⟩ := readByte_of_cons held
      rw [found] at answer
      cases answer
      rw [left]
  kept := by
    intro input answer rest found absent
    cases held : input.upcoming with
    | nil =>
      rw [readByte_of_nil held] at found
      cases found
      exact held
    | cons first others =>
      rw [(readByte_of_cons held).1] at found
      cases found
      exact absurd rfl (absent first)

theorem answerAt_eq (input : BufferedInput) (count : Nat) :
    ByteSource.answerAt input count = .ok input.upcoming[count]? := by
  induction count generalizing input with
  | zero =>
    cases held : input.upcoming with
    | nil => simp only [ByteSource.answerAt, readByte_of_nil held, List.getElem?_nil]
    | cons byte rest =>
      simp only [ByteSource.answerAt, (readByte_of_cons held).1, List.getElem?_cons_zero]
  | succ count ih =>
    cases held : input.upcoming with
    | nil => simp only [ByteSource.answerAt, readByte_of_nil held, ih, held, List.getElem?_nil]
    | cons byte rest =>
      obtain ⟨found, left⟩ := readByte_of_cons held
      simp only [ByteSource.answerAt, found, ih, left, List.getElem?_cons_succ]

/-- Queued inputs answer alike exactly when they hold the same bytes behind their cursors. -/
theorem alike_iff (input other : BufferedInput) :
    ByteSource.Alike input other ↔ input.upcoming = other.upcoming := by
  constructor
  · intro alike
    apply List.ext_getElem?
    intro index
    have same := alike index
    rw [answerAt_eq, answerAt_eq] at same
    exact Except.ok.inj same
  · intro same count
    rw [answerAt_eq, answerAt_eq, same]

end BufferedInput

namespace BufferedOutput

/-- Captured output records every byte that it was given. -/
def record : ByteSink.Record BufferedOutput where
  delivered := bytes
  accepted := by
    intro output byte rest answer
    cases answer
    simp only [bytes, write, ByteBuffer.bytes_eq, ByteBuffer.toList_push]
  refused := by
    intro output byte error rest answer
    cases answer

theorem answerTo_eq (output : BufferedOutput) (earlier : Bytes) (byte : UInt8) :
    ByteSink.answerTo output earlier byte = .ok () := by
  induction earlier generalizing output with
  | nil => rfl
  | cons first rest ih => exact ih _

/-- Captured outputs answer alike whatever they hold. -/
theorem alike (output other : BufferedOutput) : ByteSink.Alike output other := by
  intro earlier byte
  rw [answerTo_eq, answerTo_eq]

end BufferedOutput

end AdventureMachine
