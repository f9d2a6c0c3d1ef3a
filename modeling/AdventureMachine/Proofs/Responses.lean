import AdventureMachine.Proofs.Fork
import AdventureMachine.Proofs.Text

/-! Responses: captured output is taken piece by piece while more of it is still being written. The
pieces and the text that is left make up all that was written, and every piece ends at a prompt or
empties the output. -/
namespace AdventureMachine

/-- What happens to captured output: a byte is added, or the next response is taken. -/
inductive Exchange where
  | write (byte : UInt8)
  | take

namespace Exchange

/-- The bytes that an exchange adds. -/
def written : Exchange → Bytes
  | write byte => [byte]
  | take => []

/-- The response that an exchange takes, if it takes one. -/
def response? (output : BufferedOutput) : Exchange → Option String
  | write _ => none
  | take => some output.takeResponse.1

/-- The output behind an exchange. -/
def result (output : BufferedOutput) : Exchange → BufferedOutput
  | write byte => output.write byte
  | take => output.takeResponse.2

end Exchange

/-- A response and the output that it leaves: it holds the prompt once, at its end, or it holds no
prompt and is all there was to read. -/
inductive Segment (unread response : String) (left : BufferedOutput) : Prop where
  | prompted (front : String)
      (once : ∀ before after,
        response = before ++ Room.prompt ++ after ↔ before = front ∧ after = "")
  | whole (promptless : ∀ before after, response ≠ before ++ Room.prompt ++ after)
      (all : response = unread) (ended : left.cursor = left.length)

namespace BufferedOutput

/-- The output behind exchanges. -/
def through (output : BufferedOutput) (exchanges : List Exchange) : BufferedOutput :=
  exchanges.foldl Exchange.result output

/-- The responses that exchanges take, in order. -/
def responses (output : BufferedOutput) : List Exchange → List String
  | [] => []
  | exchange :: rest =>
    (exchange.response? output).toList ++ (exchange.result output).responses rest

variable {output : BufferedOutput}

theorem within_iff (output : BufferedOutput) :
    Within output.contents ↔ output.cursor ≤ output.length := by
  rw [Within, contents, ByteBuffer.length_toList]
  rfl

/-- Bytes behind those of the output are behind its unread text. -/
theorem unread_append (within : Within output.contents) (bytes : Bytes) :
    output.unread ++ Text.decode bytes =
      Text.decode ((output.contents.1 ++ bytes).drop output.contents.2.toNat) := by
  rw [Within] at within
  rw [unread_eq, ← Text.decode_append, List.drop_append_of_le_length (by omega)]

theorem contents_write (output : BufferedOutput) (byte : UInt8) :
    (output.write byte).contents = (output.contents.1 ++ [byte], output.contents.2) :=
  output.contents_behind [byte]

theorem toList_unread (output : BufferedOutput) :
    output.unread.toList =
      (output.contents.1.drop output.contents.2.toNat).map Text.byteChar := by
  rw [unread_eq, Text.toList_decode]

theorem unread_write (within : Within output.contents) (byte : UInt8) :
    (output.write byte).unread = output.unread ++ Text.decode [byte] := by
  rw [unread_append within, unread_eq, contents_write]

/-- A reader that moves the cursor within the unread text leaves what stands behind. -/
theorem toList_unread_consume (within : Within output.contents) (started : 0 ≤ output.cursor)
    {count : Nat} (inside : count ≤ output.unread.toList.length) :
    (output.consume count).unread.toList = output.unread.toList.drop count := by
  have cursor : 0 ≤ output.contents.2 := started
  rw [Within] at within
  rw [toList_unread, List.length_map, List.length_drop] at inside
  have reached : (min (output.contents.1.length : Int) (output.contents.2 + count)).toNat =
      output.contents.2.toNat + count := by omega
  rw [toList_unread, toList_unread, contents_consume, reached, ← List.map_drop, List.drop_drop]

theorem unread_readNew (output : BufferedOutput) : output.readNew.2.unread = "" := by
  rw [unread_eq, contents_readNew, Int.toNat_natCast, List.drop_length]
  rfl

/-- How the next response is cut from the unread text. -/
theorem takeResponse_cases (output : BufferedOutput) :
    (¬ Room.prompt.toList <:+: output.unread.toList ∧ output.takeResponse = output.readNew) ∨
    ∃ front rest, output.unread.toList = front ++ Room.prompt.toList ++ rest ∧
      (∀ before after, output.unread.toList = before ++ Room.prompt.toList ++ after →
        front.length ≤ before.length) ∧
      output.takeResponse = (.ofList (front ++ Room.prompt.toList),
        output.consume (front ++ Room.prompt.toList).length) := by
  cases found : Text.splitAt? Room.prompt.toList output.unread.toList with
  | none => exact .inl ⟨Text.splitAt?_go_eq_none [] found, by rw [takeResponse, found]⟩
  | some parts =>
    obtain ⟨front, behind⟩ := parts
    obtain ⟨_, rfl, cut, ⟨rest, rfl⟩, least⟩ := Text.splitAt?_go_eq_some [] found
    refine .inr ⟨front, rest, by rw [cut, List.append_assoc], ?_, by rw [takeResponse, found]⟩
    intro earlier later same
    rw [List.append_assoc] at same
    exact least earlier _ same (List.prefix_append _ _)

/-- Nothing is lost between a response and the text that it leaves. -/
theorem takeResponse_append (within : Within output.contents) (started : 0 ≤ output.cursor) :
    output.takeResponse.1 ++ output.takeResponse.2.unread = output.unread := by
  rcases output.takeResponse_cases with ⟨-, taken⟩ | ⟨front, rest, shown, -, taken⟩
  · rw [taken, unread_readNew, String.append_empty]
    rfl
  · apply String.toList_injective
    have inside : (front ++ Room.prompt.toList).length ≤ output.unread.toList.length := by
      rw [shown]
      exact (List.prefix_append _ rest).length_le
    rw [taken, String.toList_append, String.toList_ofList,
      toList_unread_consume within started inside, shown, List.drop_left]

/-- The prompt occurs in a response at its end only. -/
theorem segment_takeResponse (output : BufferedOutput) :
    Segment output.unread output.takeResponse.1 output.takeResponse.2 := by
  rcases output.takeResponse_cases with ⟨promptless, taken⟩ | ⟨front, rest, shown, least, taken⟩
  · rw [taken]
    refine .whole ?_ rfl rfl
    intro before after same
    apply promptless
    rw [show output.unread = before ++ Room.prompt ++ after from same, String.toList_append,
      String.toList_append]
    exact List.infix_append _ _ _
  · rw [taken]
    refine .prompted (.ofList front) ?_
    intro before after
    constructor
    · intro same
      have lists := congrArg String.toList same
      rw [String.toList_ofList, String.toList_append, String.toList_append] at lists
      -- An occurrence in the response is one in the unread text, so it is not before the first.
      have late := least before.toList (after.toList ++ rest) (by
        rw [shown, lists, List.append_assoc])
      have lengths := congrArg List.length lists
      simp only [List.length_append] at lengths
      obtain rfl : after = "" := String.toList_injective (List.eq_nil_of_length_eq_zero (by omega))
      rw [String.toList_empty, List.append_nil] at lists
      refine ⟨?_, rfl⟩
      rw [List.append_cancel_right lists, String.ofList_toList]
    · rintro ⟨rfl, rfl⟩
      apply String.toList_injective
      simp

end BufferedOutput

namespace Exchange

variable {output : BufferedOutput}

/-- The cursor goes forward, but not beyond the bytes. -/
theorem cursor_result (within : Within output.contents) (exchange : Exchange) :
    output.cursor ≤ (exchange.result output).cursor ∧
      Within (exchange.result output).contents := by
  cases exchange with
  | write byte =>
    refine ⟨Int.le_refl _, ?_⟩
    rw [result, BufferedOutput.contents_write]
    exact within.append [byte]
  | take =>
    refine ⟨?_, output.within_takeResponse⟩
    rw [BufferedOutput.within_iff] at within
    rcases output.takeResponse_cases with ⟨-, taken⟩ | ⟨front, rest, -, -, taken⟩
    · rw [result, taken]
      exact within
    · rw [result, taken]
      refine Int.le_min.mpr ⟨within, ?_⟩
      exact Int.le_add_of_nonneg_right (Int.natCast_nonneg _)

/-- What is taken and what is left make up what was there and what was added. -/
theorem unread_result (within : Within output.contents) (started : 0 ≤ output.cursor)
    (exchange : Exchange) :
    String.join (exchange.response? output).toList ++ (exchange.result output).unread =
      output.unread ++ Text.decode exchange.written := by
  cases exchange with
  | write byte => 
    have grown := BufferedOutput.unread_write within byte
    simpa [response?, result, written] using grown
  | take =>
    have cut := BufferedOutput.takeResponse_append within started
    simpa [response?, result, written, Text.decode] using cut

end Exchange

namespace BufferedOutput

variable {output : BufferedOutput}

theorem within_through (within : Within output.contents) (exchanges : List Exchange) :
    Within (output.through exchanges).contents := by
  induction exchanges generalizing output with
  | nil => exact within
  | cons exchange rest ih => exact ih (exchange.cursor_result within).2

theorem join_responses (within : Within output.contents) (started : 0 ≤ output.cursor)
    (exchanges : List Exchange) :
    String.join (output.responses exchanges) ++ (output.through exchanges).unread =
      output.unread ++ Text.decode (exchanges.flatMap Exchange.written) := by
  induction exchanges generalizing output with
  | nil => simp [responses, through, Text.decode]
  | cons exchange rest ih =>
    obtain ⟨forward, kept⟩ := exchange.cursor_result within
    have now := exchange.unread_result within started
    have later := ih kept (Int.le_trans started forward)
    calc String.join (output.responses (exchange :: rest)) ++
          (output.through (exchange :: rest)).unread
      _ = String.join (exchange.response? output).toList ++
          (String.join ((exchange.result output).responses rest) ++
            ((exchange.result output).through rest).unread) := by
        rw [responses, String.join_append, String.append_assoc]
        rfl
      _ = output.unread ++ Text.decode exchange.written ++
          Text.decode (rest.flatMap Exchange.written) := by
        rw [later, ← String.append_assoc, now]
      _ = output.unread ++ Text.decode ((exchange :: rest).flatMap Exchange.written) := by
        rw [List.flatMap_cons, Text.decode_append, String.append_assoc]

/-- Captured output is written and taken in any order. Each response ends at the only prompt in it,
or has no prompt and empties the output. The cursor never goes back and never passes the end. If it
started in the output, the responses and the text that is left make up all that was written from
there on. -/
theorem responses_segment_output (within : output.cursor ≤ output.length)
    (exchanges : List Exchange) :
    (0 ≤ output.cursor →
      String.join (output.responses exchanges) ++ (output.through exchanges).unread =
        Text.decode ((output.bytes ++ exchanges.flatMap Exchange.written).drop
          output.cursor.toNat)) ∧
    ∀ before exchange after, exchanges = before ++ exchange :: after →
      let reached := output.through before
      let left := exchange.result reached
      reached.cursor ≤ left.cursor ∧ left.cursor ≤ left.length ∧
        ∀ response ∈ exchange.response? reached, Segment reached.unread response left := by
  have start := (within_iff output).mpr within
  constructor
  · intro started
    rw [join_responses start started, unread_append start, bytes, ByteBuffer.bytes_eq]
    rfl
  · rintro before exchange after rfl reached left
    have inside : Within reached.contents := within_through start before
    obtain ⟨forward, kept⟩ := exchange.cursor_result inside
    refine ⟨forward, (within_iff left).mp kept, ?_⟩
    intro response taken
    cases exchange with
    | write byte => cases taken
    | take =>
      obtain rfl := Option.some.inj taken
      exact reached.segment_takeResponse

/-- What comes in behind a prompt is left for the next response. -/
theorem responses_segment_output_split :
    let output := ofBytes (Text.encode "> What do you do?") 2
    let exchanges := [.write 87, .take, .write 104, .take]
    output.cursor ≤ output.length ∧ 0 ≤ output.cursor ∧
      String.join (output.responses exchanges) ++ (output.through exchanges).unread =
        "What do you do?Wh" := by
  have within : (ofBytes (Text.encode "> What do you do?") 2).cursor ≤
      (ofBytes (Text.encode "> What do you do?") 2).length := by decide
  have started : 0 ≤ (ofBytes (Text.encode "> What do you do?") 2).cursor := by decide
  refine ⟨within, started, ?_⟩
  rw [(responses_segment_output within _).1 started]
  decide

/-- A cursor in front of all bytes counts on from there, so text that was taken comes again. -/
theorem response_repeated_in_front :
    let output := ofBytes (Text.encode "What do you do?What do you do?") (-3)
    output.cursor ≤ output.length ∧
      String.join (output.responses [.take, .take]) ++ (output.through [.take, .take]).unread ≠
        Text.decode ((output.bytes ++ [Exchange.take, .take].flatMap Exchange.written).drop
          output.cursor.toNat) := by
  decide +kernel

end BufferedOutput

end AdventureMachine
