import AdventureMachine.Proofs.Atomicity

/-! Runs as sequences of committed steps, and the part of queued input that a guest can see. A run
commits as many steps in a row as it can within its budget and then stops where the next step does
not commit. -/
namespace AdventureMachine

variable {σ τ : Type}

/-- What a guest sees of a byte string. -/
def ByteSource.seen (bytes : Bytes) : Bytes := bytes.filter (· ≠ carriageReturn)

namespace BufferedInput

/-- The bytes behind the cursor that a guest will see. -/
def visible (input : BufferedInput) : Bytes := ByteSource.seen input.upcoming

theorem readByte_append {input rest : BufferedInput} {byte : UInt8} (chunk : Bytes)
    (answer : ByteSource.readByte input = (.ok (some byte), rest)) :
    ByteSource.readByte (input.append chunk) = (.ok (some byte), rest.append chunk) := by
  cases held : input.upcoming with
  | nil =>
    rw [readByte_of_nil held] at answer
    cases answer
  | cons first others =>
    obtain ⟨found, _⟩ := readByte_of_cons held
    rw [found] at answer
    cases answer
    have inside : input.buffer.at? input.cursor = some byte := by rw [at?_cursor, held]; rfl
    rw [ByteBuffer.at?_eq] at inside
    split at inside
    · rename_i start
      obtain ⟨bound, same⟩ := List.getElem?_eq_some_iff.mp inside
      have kept : (input.buffer.append chunk).at? input.cursor = some byte := by
        rw [ByteBuffer.at?_eq, if_pos start, ByteBuffer.toList_append,
          List.getElem?_append_left bound, inside]
      simp only [ByteSource.readByte, read, append, kept]
    · cases inside

theorem upcoming_append_append (input : BufferedInput) (first second : Bytes) :
    ((input.append first).append second).upcoming = (input.append (first ++ second)).upcoming := by
  simp only [upcoming, append, ByteBuffer.toList_append, List.append_assoc]

theorem visible_append_nil (input : BufferedInput) : (input.append []).visible = input.visible := by
  rw [visible, visible, upcoming_append_nil]

theorem visible_append_append (input : BufferedInput) (first second : Bytes) :
    ((input.append first).append second).visible = (input.append (first ++ second)).visible := by
  rw [visible, visible, upcoming_append_append]

/-- A byte that is read comes off the front, whatever is appended later. -/
theorem upcoming_append_of_read {input rest : BufferedInput} {byte : UInt8} (chunk : Bytes)
    (answer : ByteSource.readByte input = (.ok (some byte), rest)) :
    (input.append chunk).upcoming = byte :: (rest.append chunk).upcoming :=
  content.taken (readByte_append chunk answer)

theorem visible_append_of_read {input rest : BufferedInput} {byte : UInt8} (chunk : Bytes)
    (answer : ByteSource.readByte input = (.ok (some byte), rest)) :
    (input.append chunk).visible =
      if byte = ByteSource.carriageReturn then (rest.append chunk).visible
      else byte :: (rest.append chunk).visible := by
  rw [visible, upcoming_append_of_read chunk answer, ByteSource.seen, List.filter_cons]
  by_cases same : byte = ByteSource.carriageReturn
  · simp [same, visible, ByteSource.seen]
  · simp [same, visible, ByteSource.seen]

theorem readVisible_append (input : BufferedInput) (chunk : Bytes) :
    match (ByteSource.readVisible input).1 with
    | .ok (some byte) => (input.append chunk).visible =
        byte :: ((ByteSource.readVisible input).2.append chunk).visible
    | _ => (input.append chunk).visible =
        ((ByteSource.readVisible input).2.append chunk).visible := by
  fun_induction ByteSource.readVisible input with
  | case1 input rest answer smaller ih =>
    rw [visible_append_of_read chunk answer, if_pos rfl]
    exact ih
  | case2 input byte rest answer different =>
    simp only [visible_append_of_read chunk answer, different, ↓reduceIte]
  | case3 input other =>
    cases held : input.upcoming with
    | nil => simp only [readByte_of_nil held]
    | cons byte others =>
      exact absurd (readByte_of_cons held).1 (other byte _)

/-- A read answers with the first byte that a guest can see, and takes no other that it can. -/
theorem readVisible_visible (input : BufferedInput) :
    (ByteSource.readVisible input).1 = .ok input.visible.head? ∧
      ∀ chunk, (input.append chunk).visible =
        input.visible.head?.toList ++ ((ByteSource.readVisible input).2.append chunk).visible := by
  have taken := readVisible_append input
  rcases found : ByteSource.readVisible input with ⟨answer, rest⟩
  simp only [found] at taken
  have now := taken []
  simp only [visible_append_nil] at now
  rcases answer with error | _ | byte
  · exact absurd (by rw [found]) (input.readVisible_ne_error error)
  · have empty : rest.visible = [] := by rw [visible, upcoming_of_exhausted found]; rfl
    simp only at now taken
    rw [now, empty]
    exact ⟨rfl, taken⟩
  · simp only at now taken
    rw [now]
    exact ⟨rfl, taken⟩

theorem readVisible_of_visible_cons {input : BufferedInput} {byte : UInt8} {others : Bytes}
    (seen : input.visible = byte :: others) :
    ∃ rest, ByteSource.readVisible input = (.ok (some byte), rest) ∧ rest.visible = others := by
  obtain ⟨answer, taken⟩ := readVisible_visible input
  have now := taken []
  simp only [visible_append_nil, seen, List.head?_cons, Option.toList_some, List.cons_append,
    List.nil_append, List.cons.injEq, true_and] at now
  rw [seen] at answer
  exact ⟨_, Prod.ext answer rfl, now.symm⟩

end BufferedInput

namespace Machine

variable [ByteSource σ] [ByteSink τ]

/-- So many committed steps in a row lead from one machine to the other. -/
inductive Commits : Nat → Machine σ τ → Machine σ τ → Prop where
  | stay (machine : Machine σ τ) : Commits 0 machine machine
  | step {count : Nat} {machine next last : Machine σ τ}
      (committed : machine.step = (next, .ok none)) (rest : Commits count next last) :
      Commits (count + 1) machine last

theorem Commits.trans {first second : Nat} {machine middle last : Machine σ τ}
    (start : Commits first machine middle) (rest : Commits second middle last) :
    Commits (second + first) machine last := by
  induction start with
  | stay _ => exact rest
  | step committed _ ih => exact .step committed (ih rest)

theorem steps_of_committed {machine : Machine σ τ} (committed : machine.step.2 = .ok none) :
    machine.step.1.steps = machine.steps + 1 := by
  rcases machine.step_cases with ⟨error, same, _⟩ | ⟨_, next, action, _, _, same⟩
  · rw [same] at committed
    cases committed
  · rw [same] at committed ⊢
    cases action with
    | drop error => cases committed
    | stop reason => cases committed
    | emit byte =>
      rcases answered : ByteSink.writeByte machine.sink byte with ⟨_ | _, rest⟩
      · simp only [perform, answered] at committed
        cases committed
      · simp only [perform, answered, commit]
    | receive register =>
      rcases answered : ByteSource.readVisible machine.source with ⟨_ | _ | byte, rest⟩
      · simp only [perform, answered] at committed
        cases committed
      · simp only [perform, answered, halt] at committed
        cases committed
      · simp only [perform, answered, commit]
    | advance => rfl
    | assign register value => rfl
    | write address value => rfl
    | push value => rfl
    | pop register value => rfl
    | jump target => rfl
    | call target => rfl
    | ret target => rfl

theorem Commits.steps {count : Nat} {machine last : Machine σ τ}
    (commits : Commits count machine last) : last.steps = machine.steps + count := by
  induction commits with
  | stay _ => rfl
  | @step count machine next last committed _ ih =>
    have counted := steps_of_committed (congrArg Prod.snd committed)
    rw [committed] at counted
    rw [ih, counted]
    omega

/-- How many steps commit in a row, at most `budget`. -/
def streak (machine : Machine σ τ) : Nat → Nat
  | 0 => 0
  | budget + 1 =>
    match machine.step with
    | (next, .ok none) => next.streak budget + 1
    | _ => 0

theorem streak_of_committed {machine : Machine σ τ} (committed : machine.step.2 = .ok none)
    (budget : Nat) : machine.streak (budget + 1) = machine.step.1.streak budget + 1 := by
  rcases stepped : machine.step with ⟨next, outcome⟩
  obtain rfl : outcome = .ok none := by rw [stepped] at committed; exact committed
  simp only [streak, stepped]

/-- How a run ends behind `count` committed steps: its budget is spent, or the next step does not
commit and gives the run its outcome. -/
def Ends (budget count : Nat) (middle : Machine σ τ) (run : Run σ τ) : Prop :=
  (count = budget ∧ run.machine = middle ∧ run.outcome = .ok none) ∨
    (count < budget ∧ middle.step.2 ≠ .ok none ∧ run.machine = middle.step.1 ∧
      run.outcome = middle.step.2)

theorem runFrom_commits (budget : Nat) (machine : Machine σ τ) (steps : Nat)
    (journal : List Log.Record) :
    (runFrom budget machine steps journal).value.steps = steps + machine.streak budget ∧
      ∃ middle, Commits (machine.streak budget) machine middle ∧
        Ends budget (machine.streak budget) middle
          (runFrom budget machine steps journal).value := by
  induction budget generalizing machine steps journal with
  | zero => exact ⟨rfl, machine, .stay machine, .inl ⟨rfl, rfl, rfl⟩⟩
  | succ budget ih =>
    rcases stepped : machine.step with ⟨next, outcome⟩
    have stop (other : outcome ≠ .ok none) : machine.step.2 ≠ .ok none := by
      rw [stepped]
      exact other
    rcases outcome with error | _ | reason
    · simp only [runFrom, streak, stepped]
      refine ⟨rfl, machine, .stay machine, .inr ⟨Nat.succ_pos _, stop (by simp), ?_, ?_⟩⟩ <;>
        rw [stepped]
    · simp only [runFrom, streak, stepped]
      obtain ⟨counted, middle, commits, ends⟩ := ih next (steps + 1) _
      refine ⟨by rw [counted]; omega, middle, .step stepped commits, ?_⟩
      rcases ends with ⟨spent, rest⟩ | ⟨left, rest⟩
      · exact .inl ⟨by rw [spent], rest⟩
      · exact .inr ⟨Nat.succ_lt_succ left, rest⟩
    · simp only [runFrom, streak, stepped]
      refine ⟨rfl, machine, .stay machine, .inr ⟨Nat.succ_pos _, stop (by simp), ?_, ?_⟩⟩ <;>
        rw [stepped]

/-- A run counts the steps it commits and ends where no further step commits. -/
theorem run_commits (machine : Machine σ τ) (budget : Nat) :
    (machine.run budget).value.steps = machine.streak budget ∧
      ∃ middle, Commits (machine.streak budget) machine middle ∧
        Ends budget (machine.streak budget) middle (machine.run budget).value := by
  obtain ⟨counted, middle, commits, ends⟩ := runFrom_commits budget machine 0 []
  exact ⟨by rw [run, counted, Nat.zero_add], middle, commits, ends⟩

theorem Commits.streak_eq {count budget : Nat} {machine last : Machine σ τ}
    (commits : Commits count machine last) (stopped : last.step.2 ≠ .ok none)
    (enough : count < budget) : machine.streak budget = count := by
  induction commits generalizing budget with
  | stay machine =>
    obtain ⟨budget, rfl⟩ : ∃ less, budget = less + 1 := ⟨budget - 1, by omega⟩
    rcases stepped : machine.step with ⟨next, _ | _ | reason⟩
    · simp only [streak, stepped]
    · exact absurd (by rw [stepped]) stopped
    · simp only [streak, stepped]
  | step committed _ ih =>
    obtain ⟨budget, rfl⟩ : ∃ less, budget = less + 1 := ⟨budget - 1, by omega⟩
    simp only [streak, committed]
    rw [ih stopped (by omega)]

theorem Commits.unique {count : Nat} {machine last other : Machine σ τ}
    (commits : Commits count machine last) (again : Commits count machine other) :
    last = other := by
  induction commits with
  | stay _ =>
    cases again
    rfl
  | step committed _ ih =>
    cases again with
    | step same rest =>
      rw [committed] at same
      cases same
      exact ih rest

theorem after_add (machine : Machine σ τ) (first second : Nat) :
    (machine.after first).after second = machine.after (first + second) := by
  induction first generalizing machine with
  | zero => rw [Nat.zero_add]; rfl
  | succ first ih => rw [Nat.succ_add]; exact ih machine.step.1

theorem Commits.eq_after {count : Nat} {machine last : Machine σ τ}
    (commits : Commits count machine last) : machine.after count = last := by
  induction commits with
  | stay _ => rfl
  | step committed _ ih => rw [after, committed, ih]

/-- The first of the steps are committed as well. -/
theorem Commits.take {count fewer : Nat} {machine last : Machine σ τ}
    (commits : Commits count machine last) (less : fewer ≤ count) :
    Commits fewer machine (machine.after fewer) := by
  induction commits generalizing fewer with
  | stay machine =>
    obtain rfl : fewer = 0 := Nat.le_zero.mp less
    exact .stay machine
  | @step count machine next last committed _ ih =>
    cases fewer with
    | zero => exact .stay machine
    | succ fewer =>
      rw [after, committed]
      exact .step committed (ih (Nat.le_of_succ_le_succ less))

theorem Commits.committed_of_lt {count fewer : Nat} {machine last middle : Machine σ τ}
    (commits : Commits count machine last) (start : Commits fewer machine middle)
    (less : fewer < count) : middle.step.2 = .ok none := by
  induction start generalizing count with
  | stay _ =>
    cases commits with
    | stay _ => cases less
    | step committed _ => rw [committed]
  | step committed _ ih =>
    cases commits with
    | stay _ => cases less
    | step same rest =>
      rw [committed] at same
      cases same
      exact ih rest (Nat.lt_of_succ_lt_succ less)

/-- A budget that the committed steps use up ends the run among them. -/
theorem Commits.run_spent {count budget : Nat} {machine last : Machine σ τ}
    (commits : Commits count machine last) (spent : budget ≤ count) :
    (machine.run budget).value.outcome = .ok none := by
  obtain ⟨_, middle, found, ends⟩ := machine.run_commits budget
  rcases ends with ⟨_, _, outcome⟩ | ⟨left, stopped, _⟩
  · exact outcome
  · exact absurd (commits.committed_of_lt found (Nat.lt_of_lt_of_le left spent)) stopped

/-- Every budget that leaves room for the step that does not commit has the same end. -/
theorem Commits.run_eq {count budget : Nat} {machine last : Machine σ τ}
    (commits : Commits count machine last) (stopped : last.step.2 ≠ .ok none)
    (enough : count < budget) :
    (machine.run budget).value.outcome = last.step.2 ∧
      (machine.run budget).value.machine = last.step.1 := by
  obtain ⟨_, middle, found, ends⟩ := machine.run_commits budget
  rw [commits.streak_eq stopped enough] at found ends
  obtain rfl := commits.unique found
  rcases ends with ⟨spent, _⟩ | ⟨_, _, halted, outcome⟩
  · omega
  · exact ⟨outcome, halted⟩

end Machine

end AdventureMachine
