import AdventureMachine.Puzzle.Teleporter
import Mathlib.Algebra.Ring.GeomSum
import Mathlib.Data.ZMod.Basic
import Mathlib.Order.Bounds.Basic
import Mathlib.Tactic.Ring

/-! The teleporter's function is the recursion that the guest runs. The first four rows have the
closed forms that evaluation uses. A table of the higher rows only ever holds values of the
recursion, so evaluation on a shared table gives them in whatever order it is asked. -/
namespace AdventureMachine.Teleporter

/-- The recursion of the guest. -/
def check (level : Nat) : (m n : Nat) → Nat
  | 0, n => (n + 1) % modulus
  | m + 1, 0 => check level m level
  | m + 1, n + 1 => check level m (check level (m + 1) n)
termination_by m n => (m, n)

section ClosedForms

variable (level : Nat)

theorem cast_ratio : (ratio level : ZMod modulus) = level + 1 := by
  rw [ratio, ZMod.natCast_mod, Nat.cast_add, Nat.cast_one]

theorem cast_offset : (offset level : ZMod modulus) = ratio level + level := by
  rw [offset, ZMod.natCast_mod, Nat.cast_add]

theorem cast_start : (start level : ZMod modulus) = level * ratio level + offset level := by
  rw [start, ZMod.natCast_mod, Nat.cast_add, Nat.cast_mul]

theorem check_one (n : Nat) : check level 1 n = (ratio level + n) % modulus := by
  induction n with
  | zero =>
    rw [check, check, ← ZMod.natCast_eq_natCast_iff']
    simp only [Nat.cast_add, Nat.cast_one, cast_ratio, Nat.add_zero]
  | succ n ih =>
    rw [check, ih, check, ← ZMod.natCast_eq_natCast_iff']
    simp only [Nat.cast_add, Nat.cast_one, ZMod.natCast_mod]
    ring

theorem check_two (n : Nat) : check level 2 n = (n * ratio level + offset level) % modulus := by
  induction n with
  | zero =>
    rw [check, check_one, ← ZMod.natCast_eq_natCast_iff']
    simp only [Nat.cast_add, Nat.cast_mul, Nat.cast_zero, cast_offset]
    ring
  | succ n ih =>
    rw [check, ih, check_one, ← ZMod.natCast_eq_natCast_iff']
    simp only [Nat.cast_add, Nat.cast_mul, Nat.cast_one, ZMod.natCast_mod]
    ring

/-- A geometric sum of even length is made of one half and the other half shifted. -/
theorem geometric_sum_double (base : ZMod modulus) (half : Nat) :
    ∑ power ∈ Finset.range (half + half), base ^ power =
      (∑ power ∈ Finset.range half, base ^ power) +
        (∑ power ∈ Finset.range half, base ^ power) * base ^ half := by
  rw [Finset.sum_range_add, Finset.sum_mul]
  congr 1
  apply Finset.sum_congr rfl
  intro power _
  rw [pow_add, mul_comm]

/-- Halving the exponent computes the geometric sum and the power. -/
theorem cast_geometric (base count : Nat) :
    ((geometric base count).1 : ZMod modulus) =
        ∑ power ∈ Finset.range count, (base : ZMod modulus) ^ power ∧
      ((geometric base count).2 : ZMod modulus) = (base : ZMod modulus) ^ count := by
  fun_induction geometric base count with
  | case1 => simp
  | case2 count nonzero sum power halved doubled squared even ih =>
    have whole : count = count / 2 + count / 2 := by omega
    rw [halved] at ih
    generalize count / 2 = half at ih whole
    subst whole
    simp only [doubled, squared, ZMod.natCast_mod, Nat.cast_add, Nat.cast_mul, ih.1, ih.2]
    rw [geometric_sum_double, pow_add]
    exact ⟨rfl, rfl⟩
  | case3 count nonzero sum power halved doubled squared odd ih =>
    have whole : count = count / 2 + count / 2 + 1 := by omega
    rw [halved] at ih
    generalize count / 2 = half at ih whole
    subst whole
    simp only [doubled, squared, ZMod.natCast_mod, Nat.cast_add, Nat.cast_mul, ih.1, ih.2]
    rw [Finset.sum_range_succ, geometric_sum_double, pow_succ, pow_add]
    exact ⟨rfl, rfl⟩

/-- The fourth row grows by the ratio and the offset. -/
theorem cast_check_three (n : Nat) :
    (check level 3 n : ZMod modulus) = start level * (ratio level : ZMod modulus) ^ n +
      offset level * ∑ power ∈ Finset.range n, (ratio level : ZMod modulus) ^ power := by
  induction n with
  | zero =>
    rw [check, check_two, ZMod.natCast_mod, Nat.cast_add, Nat.cast_mul, ← cast_start]
    simp
  | succ n ih =>
    rw [check, check_two, ZMod.natCast_mod, Nat.cast_add, Nat.cast_mul, ih, pow_succ,
      geom_sum_succ]
    ring

theorem check_lt (m n : Nat) : check level m n < modulus := by
  induction m generalizing n with
  | zero =>
    rw [check]
    exact Nat.mod_lt _ (Nat.succ_pos _)
  | succ m ih =>
    cases n with
    | zero =>
      rw [check]
      exact ih level
    | succ n =>
      rw [check]
      exact ih _

theorem check_three (n : Nat) :
    check level 3 n = (start level * (geometric (ratio level) n).2 +
      offset level * (geometric (ratio level) n).1) % modulus := by
  obtain ⟨sum, power⟩ := cast_geometric (ratio level) n
  rw [← Nat.mod_eq_of_lt (check_lt level 3 n), ← ZMod.natCast_eq_natCast_iff']
  rw [cast_check_three, Nat.cast_add, Nat.cast_mul, Nat.cast_mul, sum, power]

end ClosedForms

/-- A row that holds the first values of the recursion. -/
def Tabulates (level m : Nat) (row : Array Nat) : Prop :=
  ∀ n value, row[n]? = some value → value = check level m n

/-- A table in which every row holds values of the recursion. -/
def Known (level : Nat) (rows : Rows) : Prop :=
  ∀ (m : Nat) (row : Array Nat), rows[m]? = some row → Tabulates level (m + 4) row

/-- From every such table the computation leads to a good answer and to such a table again. -/
def Computes {α : Type} (level : Nat) (good : α → Prop) (action : StateM Rows α) : Prop :=
  ∀ rows, Known level rows → good (action.run rows).1 ∧ Known level (action.run rows).2

section Table

variable {level m : Nat} {α β : Type}

theorem computes_pure {good : α → Prop} {answer : α} (holds : good answer) :
    Computes level good (pure answer) :=
  fun _ known => ⟨holds, known⟩

theorem Computes.bind {good : β → Prop} {middle : α → Prop} {action : StateM Rows α}
    {next : α → StateM Rows β} (computes : Computes level middle action)
    (rest : ∀ answer, middle answer → Computes level good (next answer)) :
    Computes level good (action >>= next) := by
  intro rows known
  obtain ⟨holds, kept⟩ := computes rows known
  exact rest _ holds _ kept

theorem known_empty (level : Nat) : Known level {} := by
  intro m row found
  simp at found

theorem tabulates_empty (level m : Nat) : Tabulates level m #[] := by
  intro n value found
  simp at found

theorem Tabulates.push {row : Array Nat} {next : Nat} (tabulates : Tabulates level m row)
    (same : next = check level m row.size) : Tabulates level m (row.push next) := by
  intro n value found
  rw [Array.getElem?_push] at found
  split at found
  · rename_i last
    rw [← Option.some.inj found, same, last]
  · exact tabulates n value found

theorem Tabulates.getD_eq {row : Array Nat} {n : Nat} (tabulates : Tabulates level m row)
    (inside : n < row.size) : row.getD n 0 = check level m n := by
  apply tabulates n
  rw [Array.getD_eq_getD_getElem?, Array.getElem?_eq_getElem inside, Option.getD_some]

/-- The entry behind a row is computed by the row below from the last entry, or from the level when
there is none. -/
theorem Tabulates.next_eq {row : Array Nat} (tabulates : Tabulates level (m + 1) row) :
    check level m (row.back?.getD level) = check level (m + 1) row.size := by
  rw [Array.back?]
  cases size : row.size with
  | zero =>
    have absent : row[0 - 1]? = none := by simp [size]
    rw [absent, check]
    rfl
  | succ count =>
    have present : row[count]? = some row[count] := by simp
    rw [Nat.add_sub_cancel, present, Option.getD_some, check, tabulates count _ present]

/-- A row is extended by values of the recursion when the row below is evaluated to them. -/
theorem computes_extend {below : Nat → StateM Rows Nat}
    (evaluates : ∀ n, Computes level (· = check level m n) (below n)) (missing : Nat)
    {row : Array Nat} (tabulates : Tabulates level (m + 1) row) :
    Computes level
      (fun longer => Tabulates level (m + 1) longer ∧ longer.size = row.size + missing)
      (extend level below missing row) := by
  induction missing generalizing row with
  | zero => exact computes_pure ⟨tabulates, rfl⟩
  | succ missing ih =>
    refine (evaluates _).bind fun next same => ?_
    have longer := ih (tabulates.push (same.trans tabulates.next_eq))
    rw [Array.size_push, Nat.add_assoc, Nat.add_comm 1] at longer
    exact longer

theorem Known.getD {rows : Rows} (known : Known level rows) (m : Nat) :
    Tabulates level (m + 4) (rows.getD m #[]) := by
  rw [Std.HashMap.getD_eq_getD_getElem?]
  cases found : rows[m]? with
  | none => exact tabulates_empty level _
  | some row => exact known m row found

theorem Known.erase {rows : Rows} (known : Known level rows) (m : Nat) :
    Known level (rows.erase m) := by
  intro other row found
  rw [Std.HashMap.getElem?_erase] at found
  split at found
  · cases found
  · exact known other row found

theorem Known.insert {rows : Rows} {row : Array Nat} (known : Known level rows)
    (tabulates : Tabulates level (m + 4) row) : Known level (rows.insert m row) := by
  intro other found present
  rw [Std.HashMap.getElem?_insert] at present
  split at present
  · rename_i same
    rw [← Option.some.inj present, ← eq_of_beq same]
    exact tabulates
  · exact known other found present

/-- Evaluation gives the value of the recursion and keeps the table. -/
theorem computes_evaluate (level m n : Nat) :
    Computes level (· = check level m n) (evaluate level m n) := by
  induction m using Nat.strongRecOn generalizing n with
  | ind m lower =>
    match m with
    | 0 => exact computes_pure (by rw [check])
    | 1 => exact computes_pure (check_one level n).symm
    | 2 => exact computes_pure (check_two level n).symm
    | 3 => exact computes_pure (check_three level n).symm
    | m + 4 =>
      intro rows known
      have evaluates := lower (m + 3) (Nat.lt_succ_self _)
      -- The row is taken out of the table while the rows below it grow.
      have extended := computes_extend evaluates (n + 1 - (rows.getD m #[]).size) (known.getD m)
      obtain ⟨⟨tabulates, size⟩, kept⟩ := extended _ (known.erase m)
      exact ⟨tabulates.getD_eq (by omega), kept.insert tabulates⟩

/-- A sequence of calls on one table gives the values of the recursion. -/
theorem computes_calls (level : Nat) (calls : List (Nat × Nat)) :
    Computes level (· = calls.map fun call => check level call.1 call.2)
      (calls.mapM fun call => evaluate level call.1 call.2) := by
  induction calls with
  | nil => exact computes_pure rfl
  | cons call rest ih =>
    rw [List.mapM_cons]
    refine (computes_evaluate level call.1 call.2).bind fun value first => ?_
    refine ih.bind fun values others => ?_
    exact computes_pure (by rw [first, others, List.map_cons])

theorem value_eq (level m n : Nat) : value level m n = check level m n :=
  (computes_evaluate level m n {} (known_empty level)).1

end Table

/-- The search tries the levels in their order. -/
theorem findLevel?_eq (m n target count first : Nat) :
    findLevel? m n target count first =
      (List.range' first count).find? fun level => check level m n = target := by
  induction count generalizing first with
  | zero => rfl
  | succ count ih =>
    rw [findLevel?, value_eq, List.range'_succ, List.find?_cons, ih]
    by_cases met : check first m n = target
    · simp [met]
    · simp [met]

section Search

variable {m n target first last : Nat}

theorem level?_eq_some_iff {level : Nat} :
    level? m n target first last = some level ↔
      IsLeast {level | first ≤ level ∧ level ≤ last ∧ check level m n = target} level := by
  rw [level?, findLevel?_eq, List.find?_range'_eq_some, List.mem_range'_1]
  simp only [decide_eq_true_eq, Bool.not_eq_true', decide_eq_false_iff_not]
  constructor
  · rintro ⟨met, ⟨low, high⟩, earlier⟩
    refine ⟨⟨low, by omega, met⟩, ?_⟩
    rintro other ⟨otherLow, _, otherMet⟩
    exact Nat.le_of_not_lt fun less => earlier other otherLow less otherMet
  · rintro ⟨⟨low, high, met⟩, least⟩
    refine ⟨met, ⟨low, by omega⟩, ?_⟩
    intro other otherLow less otherMet
    exact Nat.not_le_of_lt less (least ⟨otherLow, by omega, otherMet⟩)

theorem level?_eq_none_iff :
    level? m n target first last = none ↔
      ∀ level, first ≤ level → level ≤ last → check level m n ≠ target := by
  rw [level?, findLevel?_eq, List.find?_range'_eq_none]
  simp only [Bool.not_eq_true', decide_eq_false_iff_not]
  constructor
  · intro missed level low high
    exact missed level low (by omega)
  · intro missed level low high
    exact missed level low (by omega)

end Search

/-- Whatever the calls on one shared table, each is answered by the recursion of the guest. The
search gives the least level of a range for which the recursion meets the target, and nothing
exactly when there is no such level. -/
theorem evaluates_recursion :
    (∀ (level : Nat) (calls : List (Nat × Nat)),
      ((calls.mapM fun call => evaluate level call.1 call.2).run {}).1 =
        calls.map fun call => check level call.1 call.2) ∧
    ∀ m n target first last : Nat,
      (∀ level, level? m n target first last = some level ↔
        IsLeast {level | first ≤ level ∧ level ≤ last ∧ check level m n = target} level) ∧
      (level? m n target first last = none ↔
        ∀ level, first ≤ level → level ≤ last → check level m n ≠ target) :=
  ⟨fun level calls => (computes_calls level calls {} (known_empty level)).1,
    fun _ _ _ _ _ => ⟨fun _ => level?_eq_some_iff, level?_eq_none_iff⟩⟩

end AdventureMachine.Teleporter
