import AdventureMachine.Number
import AdventureMachine.Proofs.Responses
import Mathlib.Algebra.GroupWithZero.Nat
import Mathlib.Data.List.Forall2
import Mathlib.Order.Bounds.Basic

/-! Storage seen from outside. A byte buffer answers as a plain list of bytes does, and a transport in
memory as a list with a cursor in it. Nothing shows how much storage there is, when it grew, or that
a copy has less of it. -/
namespace AdventureMachine.Storage

/-- A kind of object: what a call of it answers and leaves, and how it is copied. -/
structure Service (α κ ρ : Type) where
  call : α → κ → ρ × α
  clone : α → α

/-- What is asked of objects that are told apart by their places. A copy joins them at the end. -/
inductive Request (κ : Type) where
  | call (place : Nat) (call : κ)
  | clone (place : Nat)

namespace Service

variable {α β κ ρ : Type}

/-- The answer to a request, if it is a call of an object, and the objects behind it. -/
def serve (service : Service α κ ρ) (objects : List α) : Request κ → Option ρ × List α
  | .call place call =>
    match objects[place]? with
    | none => (none, objects)
    | some object =>
      let (answer, next) := service.call object call
      (some answer, objects.set place next)
  | .clone place => (none, objects ++ (objects[place]?.map service.clone).toList)

/-- The answers to requests that come one after the other. -/
def answers (service : Service α κ ρ) (objects : List α) : List (Request κ) → List (Option ρ)
  | [] => []
  | request :: rest =>
    let (answer, next) := service.serve objects request
    answer :: service.answers next rest

/-- Objects that show plain ones answer calls as these do, and go on showing them. -/
structure Refines (service : Service α κ ρ) (plain : Service β κ ρ) (Shows : α → β → Prop) :
    Prop where
  call : ∀ {object shown}, Shows object shown → ∀ call,
    (service.call object call).1 = (plain.call shown call).1 ∧
      Shows (service.call object call).2 (plain.call shown call).2
  clone : ∀ {object shown}, Shows object shown → Shows (service.clone object) (plain.clone shown)

variable {service : Service α κ ρ} {plain : Service β κ ρ} {Shows : α → β → Prop}
variable {objects : List α} {shown : List β}

theorem rel_getElem? (related : List.Forall₂ Shows objects shown) (place : Nat) :
    Option.Rel Shows objects[place]? shown[place]? := by
  induction related generalizing place with
  | nil => exact .none
  | cons first _ ih =>
    cases place with
    | zero => exact .some first
    | succ place => exact ih place

theorem rel_set {object : α} {value : β} (related : List.Forall₂ Shows objects shown)
    (next : Shows object value) (place : Nat) :
    List.Forall₂ Shows (objects.set place object) (shown.set place value) := by
  induction related generalizing place with
  | nil => exact .nil
  | cons first rest ih =>
    cases place with
    | zero => exact .cons next rest
    | succ place => exact .cons first (ih place)

/-- One request is answered alike, whichever object it is about. -/
theorem Refines.serve (refines : service.Refines plain Shows)
    (related : List.Forall₂ Shows objects shown) (request : Request κ) :
    (service.serve objects request).1 = (plain.serve shown request).1 ∧
      List.Forall₂ Shows (service.serve objects request).2 (plain.serve shown request).2 := by
  cases request with
  | call place call =>
    -- Either both sides have an object at the place, or neither has.
    have found := rel_getElem? related place
    simp only [Service.serve]
    generalize objects[place]? = object, shown[place]? = value at found
    cases found with
    | none => exact ⟨rfl, related⟩
    | some shows =>
      obtain ⟨answer, next⟩ := refines.call shows call
      exact ⟨congrArg some answer, rel_set related next place⟩
  | clone place =>
    have found := rel_getElem? related place
    simp only [Service.serve]
    generalize objects[place]? = object, shown[place]? = value at found
    refine ⟨trivial, List.rel_append related ?_⟩
    cases found with
    | none => exact .nil
    | some shows => exact .cons (refines.clone shows) .nil

/-- Objects that show plain ones give the same answers for good. -/
theorem Refines.answers (refines : service.Refines plain Shows)
    (related : List.Forall₂ Shows objects shown) (requests : List (Request κ)) :
    service.answers objects requests = plain.answers shown requests := by
  induction requests generalizing objects shown with
  | nil => rfl
  | cons request rest ih =>
    obtain ⟨answer, next⟩ := refines.serve related request
    simp only [Service.answers, answer, ih next]

end Service

/-- What calls of the objects below answer. -/
inductive Answer where
  | done
  | found (byte : Option UInt8)
  | read (outcome : Except Error (Option UInt8))
  | written (outcome : Except Error Unit)
  | bytes (copy : Bytes)
  | number (value : Int)
  | text (text : String)

/-- Calls of a byte buffer. A bound of a slice may be left out. -/
inductive BufferCall where
  | push (value : Number)
  | append (bytes : Bytes)
  | byteAt (index : Int)
  | slice (first last : Option Int)
  | length

/-- What can be put into input: bytes, or a text. -/
inductive Data where
  | bytes (bytes : Bytes)
  | text (text : String)

/-- The bytes that are sent for it. -/
def Data.encoded : Data → Bytes
  | .bytes held => held
  | .text content => Text.encode content

/-- Calls of queued input. -/
inductive InputCall where
  | append (data : Data)
  | read
  | position
  | pending

/-- Calls of captured output. -/
inductive OutputCall where
  | write (value : Number)
  | consume (count : Nat)
  | unread
  | readNew
  | text
  | bytes
  | cursor
  | length

/-- Byte buffers. -/
def buffers : Service ByteBuffer BufferCall Answer where
  call buffer
    | .push value => (.done, buffer.push value.toByte)
    | .append bytes => (.done, buffer.append bytes)
    | .byteAt index => (.found (buffer.at? index), buffer)
    | .slice first last =>
      (.bytes (buffer.slice (first.getD 0) (last.getD buffer.length)), buffer)
    | .length => (.number buffer.length, buffer)
  clone := ByteBuffer.clone

/-- Queued inputs. -/
def inputs : Service BufferedInput InputCall Answer where
  call input
    | .append data => (.done, input.append data.encoded)
    | .read =>
      let (outcome, next) := ByteSource.readByte input
      (.read outcome, next)
    | .position => (.number input.position, input)
    | .pending => (.number input.pending, input)
  clone := BufferedInput.clone

/-- Captured outputs. -/
def outputs : Service BufferedOutput OutputCall Answer where
  call output
    | .write value =>
      let (outcome, next) := ByteSink.writeByte output value.toByte
      (.written outcome, next)
    | .consume count => (.done, output.consume count)
    | .unread => (.text output.unread, output)
    | .readNew =>
      let (text, next) := output.readNew
      (.text text, next)
    | .text => (.text output.text, output)
    | .bytes => (.bytes output.bytes, output)
    | .cursor => (.number output.cursor, output)
    | .length => (.number output.length, output)
  clone := BufferedOutput.clone

/-! The plain side: lists of bytes, and lists with a cursor. They are values, so each is its own
copy. -/

/-- The remainder of the whole part by 256. -/
def lowByte (value : Number) : UInt8 := .ofNat (value.truncate % 256).toNat

/-- The bytes of one character: one up to U+00FF, and the UTF-8 bytes of a wider one. -/
def spelling (c : Char) : Bytes :=
  if c.toNat ≤ 0xff then [.ofNat c.toNat] else (String.singleton c).toByteArray.data.toList

/-- Bytes themselves, and the spellings of the characters of a text one after the other. -/
def Data.spelled : Data → Bytes
  | .bytes held => held
  | .text content => content.toList.flatMap spelling

/-- The place in a list that is nearest to a bound. -/
def nearest (bound : Int) (bytes : Bytes) : Nat := (max 0 (min bound bytes.length)).toNat

/-- Lists of bytes. -/
def lists : Service Bytes BufferCall Answer where
  call bytes
    | .push value => (.done, bytes ++ [lowByte value])
    | .append more => (.done, bytes ++ more)
    | .byteAt index => (.found (if index < 0 then none else bytes[index.toNat]?), bytes)
    | .slice first last =>
      let stop := last.elim bytes.length (nearest · bytes)
      let start := first.elim 0 (nearest · bytes)
      (.bytes ((bytes.take stop).drop start), bytes)
    | .length => (.number bytes.length, bytes)
  clone := id

/-- A list of bytes with a cursor in it. -/
structure Tape where
  bytes : Bytes
  cursor : Nat
  cursor_le : cursor ≤ bytes.length

namespace Tape

/-- Bytes with a cursor, which is put back to their end if it is beyond them. -/
def ofBytes (bytes : Bytes) (cursor : Nat) : Tape :=
  ⟨bytes, min cursor bytes.length, Nat.min_le_right _ _⟩

/-- The bytes behind the cursor. -/
def upcoming (tape : Tape) : Bytes := tape.bytes.drop tape.cursor

/-- The same cursor with more bytes at the end. -/
def extend (tape : Tape) (more : Bytes) : Tape :=
  ⟨tape.bytes ++ more, tape.cursor, by
    rw [List.length_append]
    exact Nat.le_add_right_of_le tape.cursor_le⟩

/-- The cursor moved on, at most to the end. -/
def advance (tape : Tape) (count : Nat) : Tape := ofBytes tape.bytes (tape.cursor + count)

/-- Tapes as input. -/
def input : Service Tape InputCall Answer where
  call tape
    | .append data => (.done, tape.extend data.spelled)
    | .read => (.read (.ok tape.upcoming.head?), tape.advance 1)
    | .position => (.number tape.cursor, tape)
    | .pending => (.number tape.upcoming.length, tape)
  clone := id

/-- Tapes as output. -/
def output : Service Tape OutputCall Answer where
  call tape
    | .write value => (.written (.ok ()), tape.extend [lowByte value])
    | .consume count => (.done, tape.advance count)
    | .unread => (.text (Text.decode tape.upcoming), tape)
    | .readNew => (.text (Text.decode tape.upcoming), tape.advance tape.upcoming.length)
    | .text => (.text (Text.decode tape.bytes), tape)
    | .bytes => (.bytes tape.bytes, tape)
    | .cursor => (.number tape.cursor, tape)
    | .length => (.number tape.bytes.length, tape)
  clone := id

end Tape

theorem toByte_eq (value : Number) : value.toByte = lowByte value := by
  rw [Number.toByte, lowByte, UInt8.ofInt]
  rfl

theorem charBytes_eq (c : Char) : Text.charBytes c = spelling c := by
  rw [Text.charBytes, spelling]
  split
  · rfl
  · rw [String.toByteArray_singleton, List.utf8Encode_singleton]
    simp

theorem encoded_eq (data : Data) : data.encoded = data.spelled := by
  cases data with
  | bytes bytes => rfl
  | text text => exact congrArg text.toList.flatMap (funext charBytes_eq)

theorem nearest_zero (bytes : Bytes) : nearest 0 bytes = 0 := by
  rw [nearest]
  omega

theorem nearest_length (bytes : Bytes) : nearest bytes.length bytes = bytes.length := by
  rw [nearest]
  omega

/-- A slice stays within the bytes in use, wherever its bounds are. -/
theorem slice_nearest (buffer : ByteBuffer) (first last : Int) :
    buffer.slice first last =
      (buffer.toList.take (nearest last buffer.toList)).drop (nearest first buffer.toList) := by
  have stop : buffer.toList.take last.toNat = buffer.toList.take (nearest last buffer.toList) := by
    rw [List.take_eq_take_iff, nearest]
    omega
  rw [ByteBuffer.slice_eq, stop, List.drop_eq_drop_iff, List.length_take, nearest, nearest]
  omega

/-- A buffer shows the bytes in use. -/
theorem buffers_refine : buffers.Refines lists fun buffer bytes => buffer.toList = bytes where
  call := by
    rintro buffer _ rfl call
    cases call with
    | push value => exact ⟨rfl, by simp only [buffers, lists, ByteBuffer.toList_push, toByte_eq]⟩
    | append bytes => exact ⟨rfl, buffer.toList_append bytes⟩
    | byteAt index =>
      refine ⟨?_, rfl⟩
      simp only [buffers, lists, ByteBuffer.at?_eq, ← Int.not_le, ite_not]
    | slice first last =>
      refine ⟨?_, rfl⟩
      simp only [buffers, lists, slice_nearest, ← ByteBuffer.length_toList]
      cases first <;> cases last <;>
        simp only [Option.getD_none, Option.getD_some, Option.elim_none, Option.elim_some,
          nearest_zero, nearest_length]
    | length => exact ⟨by simp only [buffers, lists, ByteBuffer.length_toList], rfl⟩
  clone := by
    rintro buffer _ rfl
    exact buffer.toList_clone

namespace Tape

/-- The bytes and the cursor. -/
def contents (tape : Tape) : Bytes × Int := (tape.bytes, tape.cursor)

theorem contents_ofBytes (bytes : Bytes) (cursor : Nat) :
    (ofBytes bytes cursor).contents = clamped bytes cursor := by
  simp only [contents, ofBytes, clamped, Prod.mk.injEq, true_and]
  omega

theorem contents_advance (tape : Tape) (count : Nat) :
    (tape.advance count).contents =
      (tape.bytes, min (tape.bytes.length : Int) (tape.cursor + count)) := by
  rw [advance, contents_ofBytes, clamped, Int.natCast_add, Int.min_comm]

theorem length_upcoming (tape : Tape) :
    tape.cursor + tape.upcoming.length = tape.bytes.length := by
  have inside := tape.cursor_le
  rw [upcoming, List.length_drop]
  omega

/-- A tape whose cursor is put back to the end stays as it is. -/
theorem clamped_contents (tape : Tape) :
    clamped tape.contents.1 tape.contents.2 = tape.contents :=
  Within.clamped_eq (Int.ofNat_le.mpr tape.cursor_le)

end Tape

section

variable {input : BufferedInput} {output : BufferedOutput} {tape : Tape}

theorem upcoming_of_shows (shows : input.contents = tape.contents) :
    input.upcoming = tape.upcoming := by
  obtain ⟨bytes, cursor⟩ := Prod.mk.inj shows
  rw [BufferedInput.upcoming, bytes, cursor, if_pos (Int.natCast_nonneg _), Int.toNat_natCast,
    Tape.upcoming]

theorem pending_of_shows (shows : input.contents = tape.contents) :
    input.pending = tape.upcoming.length := by
  obtain ⟨bytes, cursor⟩ := Prod.mk.inj shows
  have lengths := tape.length_upcoming
  rw [BufferedInput.pending, ← ByteBuffer.length_toList, bytes, cursor]
  omega

/-- A read takes the byte behind the cursor, if there is one. -/
theorem readByte_of_shows (shows : input.contents = tape.contents) :
    (ByteSource.readByte input).1 = .ok tape.upcoming.head? ∧
      (ByteSource.readByte input).2.contents = (tape.advance 1).contents := by
  obtain ⟨outcome, next⟩ := input.readByte_eq
  rw [upcoming_of_shows shows] at outcome next
  refine ⟨outcome, ?_⟩
  have lengths := tape.length_upcoming
  rw [next, shows, Tape.contents_advance, Tape.contents]
  cases behind : tape.upcoming with
  | nil =>
    rw [behind, List.length_nil] at lengths
    simp only [List.head?_nil, Option.toList_none, List.length_nil, Prod.mk.injEq, true_and]
    omega
  | cons byte rest =>
    rw [behind, List.length_cons] at lengths
    simp only [List.head?_cons, Option.toList_some, List.length_singleton, Prod.mk.injEq, true_and]
    omega

theorem unread_of_shows (shows : output.contents = tape.contents) :
    output.unread = Text.decode tape.upcoming := by
  rw [BufferedOutput.unread_eq, shows, Tape.contents, Int.toNat_natCast, Tape.upcoming]

theorem bytes_of_shows (shows : output.contents = tape.contents) : output.bytes = tape.bytes := by
  rw [BufferedOutput.bytes, ByteBuffer.bytes_eq]
  exact congrArg Prod.fst shows

theorem length_of_shows (shows : output.contents = tape.contents) :
    output.length = tape.bytes.length := by
  rw [BufferedOutput.length, ← ByteBuffer.length_toList]
  exact congrArg (·.1.length) shows

/-- The cursor of an emptied output is at the end, as that of an emptied tape. -/
theorem readNew_of_shows (shows : output.contents = tape.contents) :
    output.readNew.2.contents = (tape.advance tape.upcoming.length).contents := by
  have lengths := tape.length_upcoming
  rw [BufferedOutput.contents_readNew, shows, Tape.contents_advance, Tape.contents]
  simp only [Prod.mk.injEq, true_and]
  omega

end

/-- An input shows the tape with its bytes and its position. -/
theorem inputs_refine :
    inputs.Refines Tape.input fun input tape => input.contents = tape.contents where
  call := by
    intro input tape shows call
    cases call with
    | append data =>
      refine ⟨rfl, ?_⟩
      simp only [inputs, Tape.input, BufferedInput.contents_append, shows, encoded_eq]
      rfl
    | read =>
      obtain ⟨outcome, next⟩ := readByte_of_shows shows
      exact ⟨congrArg Answer.read outcome, next⟩
    | position => exact ⟨congrArg Answer.number (congrArg Prod.snd shows), shows⟩
    | pending => exact ⟨congrArg Answer.number (pending_of_shows shows), shows⟩
  clone := by
    intro input tape shows
    simp only [inputs, BufferedInput.clone_eq, BufferedInput.contents_ofBytes, shows]
    exact tape.clamped_contents

/-- An output shows the tape with its bytes and its cursor. -/
theorem outputs_refine :
    outputs.Refines Tape.output fun output tape => output.contents = tape.contents where
  call := by
    intro output tape shows call
    cases call with
    | write value =>
      refine ⟨rfl, ?_⟩
      simp only [outputs, Tape.output, ByteSink.writeByte, BufferedOutput.contents_write, shows,
        toByte_eq]
      rfl
    | consume count =>
      refine ⟨rfl, ?_⟩
      simp only [outputs, Tape.output, BufferedOutput.contents_consume, shows,
        Tape.contents_advance]
      rfl
    | unread => exact ⟨congrArg Answer.text (unread_of_shows shows), shows⟩
    | readNew => exact ⟨congrArg Answer.text (unread_of_shows shows), readNew_of_shows shows⟩
    | text => exact ⟨congrArg (Answer.text ∘ Text.decode) (bytes_of_shows shows), shows⟩
    | bytes => exact ⟨congrArg Answer.bytes (bytes_of_shows shows), shows⟩
    | cursor => exact ⟨congrArg Answer.number (congrArg Prod.snd shows), shows⟩
    | length =>
      exact ⟨congrArg (fun length : Nat => Answer.number length) (length_of_shows shows), shows⟩
  clone := by
    intro output tape shows
    simp only [outputs, BufferedOutput.clone_eq, BufferedOutput.contents_ofBytes, shows]
    exact tape.clamped_contents

/-- The search for room ends after the least number of doublings that is enough. -/
theorem grownCapacity_eq (capacity required : Nat) (nonempty : 0 < capacity) :
    ∃ doublings, grownCapacity capacity required nonempty = capacity * 2 ^ doublings ∧
      IsLeast {count | required ≤ capacity * 2 ^ count} doublings := by
  fun_induction grownCapacity with
  | case1 capacity _ enough =>
    refine ⟨0, (Nat.mul_one capacity).symm, ?_, fun count _ => Nat.zero_le count⟩
    simpa using enough
  | case2 capacity _ short ih =>
    have doubled (count : Nat) : 2 * capacity * 2 ^ count = capacity * 2 ^ (count + 1) := by
      rw [Nat.pow_succ, Nat.mul_comm 2 capacity, Nat.mul_assoc, Nat.mul_comm 2]
    simp only [doubled] at ih
    obtain ⟨doublings, grown, reached, least⟩ := ih
    refine ⟨doublings + 1, grown, reached, ?_⟩
    -- What there was is not enough, so nothing below the least number for twice as much is.
    intro count enough
    cases count with
    | zero => exact absurd (by simpa using enough) short
    | succ count => exact Nat.succ_le_succ (least enough)

theorem size_reserve (buffer : ByteBuffer) (required : Nat) :
    (buffer.reserve required).storage.size =
      grownCapacity buffer.storage.size required buffer.nonempty := by
  have larger := (le_grownCapacity buffer.storage.size required buffer.nonempty).2
  rw [ByteBuffer.reserve]
  split
  · rw [grownCapacity, if_pos ‹_›]
  · rw [Array.size_append, Array.size_replicate, Nat.add_sub_cancel' larger]

/-- A buffer with one more character: a narrow one is pushed, a wider one comes as UTF-8. -/
def addChar (buffer : ByteBuffer) (c : Char) : ByteBuffer :=
  if c.toNat ≤ 0xff then buffer.push (.ofNat c.toNat) else buffer.append (String.utf8EncodeChar c)

theorem toList_addChar (buffer : ByteBuffer) (c : Char) :
    (addChar buffer c).toList = buffer.toList ++ Text.charBytes c := by
  rw [addChar, Text.charBytes]
  split
  · exact buffer.toList_push _
  · exact buffer.toList_append _

theorem toList_foldl_addChar (buffer : ByteBuffer) (chars : List Char) :
    (chars.foldl addChar buffer).toList = buffer.toList ++ chars.flatMap Text.charBytes := by
  induction chars generalizing buffer with
  | nil => exact (List.append_nil _).symm
  | cons c rest ih =>
    rw [List.foldl_cons, ih, toList_addChar, List.flatMap_cons, List.append_assoc]

/-- Storage never shows. A byte buffer that starts empty, with any room, or with any content answers
as the list of its bytes, and so do its copies. Queued input and captured output answer as a list
with a cursor in it; a text is queued as the spellings of its characters, and a decoded byte string as
itself. A text can be put into a buffer character by character. Whatever room is asked for, storage
is doubled no more often than that takes. -/
theorem storage_refines_lists :
    (∀ (capacity : Nat) (requests : List (Request BufferCall)),
      buffers.answers [.empty capacity] requests = lists.answers [[]] requests) ∧
    (∀ (content : Bytes) (requests : List (Request BufferCall)),
      buffers.answers [.ofList content] requests = lists.answers [content] requests) ∧
    (∀ (initial : Data) (position : Nat) (requests : List (Request InputCall)),
      inputs.answers [.ofBytes initial.encoded position] requests =
        Tape.input.answers [.ofBytes initial.spelled position] requests) ∧
    (∀ (content : Bytes) (cursor : Nat) (requests : List (Request OutputCall)),
      outputs.answers [.ofBytes content cursor] requests =
        Tape.output.answers [.ofBytes content cursor] requests) ∧
    (∀ (text : String) (capacity : Nat),
      (text.toList.foldl addChar (.empty capacity)).bytes = Text.encode text ∧
        Text.encode text = text.toList.flatMap spelling) ∧
    (∀ (input : BufferedInput) (bytes : Bytes),
      input.append (Data.text (Text.decode bytes)).encoded = input.append bytes) ∧
    ∀ (buffer : ByteBuffer) (required : Nat), ∃ doublings,
      (buffer.reserve required).storage.size = buffer.storage.size * 2 ^ doublings ∧
        IsLeast {count | required ≤ buffer.storage.size * 2 ^ count} doublings := by
  refine ⟨?_, ?_, ?_, ?_, ?_, ?_, ?_⟩
  · intro capacity requests
    exact buffers_refine.answers (.cons (ByteBuffer.toList_empty capacity) .nil) requests
  · intro content requests
    exact buffers_refine.answers (.cons (ByteBuffer.toList_ofList content) .nil) requests
  · intro initial position requests
    have shows : (BufferedInput.ofBytes initial.encoded position).contents =
        (Tape.ofBytes initial.spelled position).contents := by
      rw [BufferedInput.contents_ofBytes, Tape.contents_ofBytes, encoded_eq]
    exact inputs_refine.answers (.cons shows .nil) requests
  · intro content cursor requests
    have shows : (BufferedOutput.ofBytes content cursor).contents =
        (Tape.ofBytes content cursor).contents := by
      rw [BufferedOutput.contents_ofBytes, Tape.contents_ofBytes]
    exact outputs_refine.answers (.cons shows .nil) requests
  · intro text capacity
    refine ⟨?_, encoded_eq (.text text)⟩
    rw [ByteBuffer.bytes_eq, toList_foldl_addChar, ByteBuffer.toList_empty, List.nil_append,
      Text.encode]
  · intro input bytes
    rw [Data.encoded, Text.encode_decode]
  · intro buffer required
    rw [size_reserve]
    exact grownCapacity_eq _ _ _

/-- A copy goes its own way, and grows past the one byte that it had room for. -/
example : buffers.answers [.empty 1]
      [.call 0 (.push 321), .clone 0, .call 1 (.append [1, 2]), .call 1 (.slice none (some 99)),
        .call 0 .length] =
    [some .done, none, some .done, some (.bytes [65, 1, 2]), some (.number 1)] := by
  cbv

end AdventureMachine.Storage
