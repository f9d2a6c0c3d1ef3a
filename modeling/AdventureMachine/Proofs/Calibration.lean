import AdventureMachine.Puzzle.Calibration
import AdventureMachine.Proofs.Guest
import AdventureMachine.Proofs.Teleporter

/-! Calibrating a teleporter. Driving a machine to the check is plain stepping, which either stands
at the check for the first time or ends where no further step is taken. A level that passes the
check can be written to its register, because both it and the target are literals. So a calibration
that fails has done nothing but step the machine. -/
namespace AdventureMachine

namespace Calibration

/-- The machine stands at the check for the first time after so many committed steps. -/
structure Arrives (check : Number) (count : Nat) (machine here : Adventure) : Prop where
  commits : Machine.Commits count machine here
  stands : here.pc = check
  first : ∀ fewer < count, ∀ middle, Machine.Commits fewer machine middle → middle.pc ≠ check

section Approach

variable {check : Number} {count other : Nat} {machine here there : Adventure}

theorem arrives_here (stands : machine.pc = check) : Arrives check 0 machine machine :=
  ⟨.stay machine, stands, fun _ fewer => absurd fewer (Nat.not_lt_zero _)⟩

theorem Arrives.step {next : Adventure} (away : machine.pc ≠ check)
    (committed : machine.step = (next, .ok none)) (arrives : Arrives check count next here) :
    Arrives check (count + 1) machine here := by
  refine ⟨.step committed arrives.commits, arrives.stands, ?_⟩
  intro fewer less middle commits
  cases commits with
  | stay _ => exact away
  | step same rest =>
    rw [committed] at same
    cases same
    exact arrives.first _ (Nat.lt_of_succ_lt_succ less) middle rest

theorem Arrives.le (arrives : Arrives check count machine here)
    (again : Arrives check other machine there) : count ≤ other := by
  refine Nat.le_of_not_lt fun less => ?_
  exact arrives.first other less there again.commits again.stands

/-- A machine comes to the check for the first time only once. -/
theorem Arrives.unique (arrives : Arrives check count machine here)
    (again : Arrives check other machine there) : count = other ∧ here = there := by
  obtain rfl : count = other := Nat.le_antisymm (arrives.le again) (again.le arrives)
  exact ⟨rfl, arrives.commits.unique again.commits⟩

/-- Away from the check a machine arrives later or not at all. -/
theorem Arrives.of_away (arrives : Arrives check count machine here) (away : machine.pc ≠ check) :
    ∃ fewer next, count = fewer + 1 ∧ machine.step = (next, .ok none) ∧
      Arrives check fewer next here := by
  obtain ⟨commits, stands, first⟩ := arrives
  cases commits with
  | stay _ => exact absurd stands away
  | step committed rest =>
    refine ⟨_, _, rfl, committed, rest, stands, ?_⟩
    intro fewer less middle reached
    exact first (fewer + 1) (Nat.succ_lt_succ less) middle (.step committed reached)

/-- Stepping to the check within a budget arrives there, or fails and leaves the machine that so
many steps lead to. -/
theorem approach_cases (plan : Calibration) (budget : Nat) (game : Adventure)
    (journal : List Log.Record) :
    (∃ count here, count ≤ budget ∧ Arrives plan.checkPc count game here ∧
      (plan.approach budget game journal).value = (.ok (), here)) ∨
    ((∃ failure, ∃ count ≤ budget,
        (plan.approach budget game journal).value = (.error failure, game.after count)) ∧
      ∀ count ≤ budget, ∀ here, ¬ Arrives plan.checkPc count game here) := by
  induction budget generalizing game journal with
  | zero =>
    by_cases stands : game.pc = plan.checkPc
    · refine .inl ⟨0, game, Nat.le_refl _, arrives_here stands, ?_⟩
      simp only [approach, stands, ↓reduceIte]
    · refine .inr ⟨⟨.unreached plan.checkPc plan.limit, 0, Nat.le_refl _, ?_⟩, ?_⟩
      · simp only [approach, stands, ↓reduceIte, Machine.after]
      · intro count none here arrives
        obtain ⟨fewer, _, rfl, _⟩ := arrives.of_away stands
        exact absurd none (Nat.not_succ_le_zero _)
  | succ budget ih =>
    by_cases stands : game.pc = plan.checkPc
    · refine .inl ⟨0, game, Nat.zero_le _, arrives_here stands, ?_⟩
      simp only [approach, stands, ↓reduceIte]
    · have missed (stopped : game.step.2 ≠ .ok none) (count : Nat) (here : Adventure) :
          ¬ Arrives plan.checkPc count game here := by
        intro arrives
        obtain ⟨_, _, _, committed, _⟩ := arrives.of_away stands
        exact stopped (congrArg Prod.snd committed)
      rcases stepped : game.step with ⟨next, error | _ | reason⟩
      · refine .inr ⟨⟨.machine error, 1, by omega, ?_⟩, fun _ _ => missed (by simp [stepped]) _⟩
        simp only [approach, stands, ↓reduceIte, Machine.loggedStep, stepped, Machine.after]
      · rcases ih next (game.loggedStep.journal.reverse ++ journal) with
          ⟨count, here, less, arrives, value⟩ | ⟨⟨failure, count, less, value⟩, never⟩
        · refine .inl ⟨count + 1, here, by omega, arrives.step stands stepped, ?_⟩
          rw [approach]
          simpa only [stands, ↓reduceIte, Machine.loggedStep, stepped] using value
        · refine .inr ⟨⟨failure, count + 1, by omega, ?_⟩, ?_⟩
          · rw [approach]
            simpa only [stands, ↓reduceIte, Machine.loggedStep, stepped, Machine.after] using value
          · intro later bound here arrives
            obtain ⟨fewer, _, rfl, committed, rest⟩ := arrives.of_away stands
            rw [stepped] at committed
            cases committed
            exact never fewer (by omega) here rest
      · refine .inr ⟨⟨.halted reason plan.checkPc, 1, by omega, ?_⟩,
          fun _ _ => missed (by simp [stepped]) _⟩
        simp only [approach, stands, ↓reduceIte, Machine.loggedStep, stepped, Machine.after]

end Approach

section Finish

variable {plan : Calibration} {game : Adventure} {m n target : UInt16}

/-- A level of fifteen bits for which the guest's recursion gives the target. -/
def Passes (m n target : UInt16) (level : Nat) : Prop :=
  level ≤ maxLiteral ∧ Teleporter.check level m.toNat n.toNat = target.toNat

instance (level : Nat) : Decidable (Passes m n target level) :=
  inferInstanceAs (Decidable (_ ∧ _))

/-- The words in memory that hold the parameters of the check and the target. -/
structure Asks (plan : Calibration) (memory : Memory) (m n target : UInt16) : Prop where
  first : memory.read (plan.checkPc.shift 2) = .ok m
  second : memory.read (plan.checkPc.shift 5) = .ok n
  wanted : memory.read (plan.resumePc.shift 3) = .ok target

theorem cell?_eq_some_iff {memory : Memory} {address : Number} {distance : Int} {word : UInt16} :
    cell? memory address distance = some word ↔
      memory.read (address.shift distance) = .ok word := by
  rw [cell?, Memory.read]
  split
  · rename_i found
    rw [found, Option.map_some, Option.some.injEq, Except.ok.injEq]
  · rename_i missing
    rw [missing, Option.map_none]
    constructor <;> intro same <;> cases same

/-- The recursion wraps, so a target that passes is a literal. -/
theorem Passes.literal {level : Nat} (passes : Passes m n target level) :
    target.toNat ≤ maxLiteral := by
  rw [← passes.2]
  exact Nat.le_of_lt_succ (Teleporter.check_lt level m.toNat n.toNat)

theorem solve_eq_ok_iff {first second wanted : Option UInt16} {result : Result} :
    solve first second wanted = .ok result ↔
      first = some result.m ∧ second = some result.n ∧ wanted = some result.target ∧
        IsLeast {level | Passes result.m result.n result.target level} result.level := by
  have levels (m n target : UInt16) (level : Nat) :
      Teleporter.level? m.toNat n.toNat target.toNat 0 maxLiteral = some level ↔
        IsLeast {level | Passes m n target level} level := by
    simp only [Teleporter.level?_eq_some_iff, Nat.zero_le, true_and, Passes]
  constructor
  · intro solved
    unfold solve at solved
    split at solved
    · split at solved
      · rename_i found
        cases solved
        exact ⟨rfl, rfl, rfl, (levels _ _ _ _).mp found⟩
      · cases solved
    · cases solved
  · rintro ⟨rfl, rfl, rfl, least⟩
    simp only [solve, (levels _ _ _ _).mpr least]

/-- A register takes every literal. -/
theorem setRegister_of_literal {index : Number} {register : Fin registerCount} {word : UInt16}
    (named : Operand.destination (index.shift firstRegister) = .ok register)
    (literal : word.toNat ≤ maxLiteral) :
    game.setRegister index (.ofWord word) =
      .ok { game with registers := game.registers.put register word } := by
  have inside : (Number.ofWord word).within 0 maxLiteral = true := by
    simp only [Number.ofWord, Number.within, Int.ofNat_eq_natCast, Bool.and_eq_true,
      decide_eq_true_eq]
    omega
  have loaded : game.registers.load (.ofWord word) = .ok (.ofWord word) := by
    rw [Registers.load, if_pos inside]
  have kept : (Number.ofWord word).toWord = word := by
    rw [Number.ofWord, Number.toWord_ofNat, UInt16.ofNat_toNat]
  have set : game.registers.set (index.shift firstRegister) (.ofWord word) =
      .ok (game.registers.put register word) := by
    simp only [Registers.set, loaded, named, bind, Except.bind, kept]
    rfl
  have asked : game.setRegister index (.ofWord word) =
      if (Number.ofWord word).within 0 maxLiteral then
        (game.registers.set (index.shift firstRegister) (.ofWord word)).map
          fun registers => { game with registers }
      else .error (.invalidLoad (.ofWord word)) := rfl
  rw [asked, if_pos inside, set]
  rfl

theorem destination_level : Operand.destination (levelRegister.shift firstRegister) = .ok 7 := rfl

theorem destination_result : Operand.destination (resultRegister.shift firstRegister) = .ok 0 := rfl

/-- The game behind the check, with the registers that a passed check leaves. -/
def passed (plan : Calibration) (game : Adventure) (result : Result) : Adventure :=
  { game with
    pc := plan.resumePc
    registers := (game.registers.put 0 result.target).put 7 (.ofNat result.level) }

/-- Leaving the check can not fail. -/
theorem resume_of_passes {result : Result}
    (passes : Passes result.m result.n result.target result.level) :
    plan.resume game result = .ok (plan.passed game result) := by
  have limits := word_limits
  have small : result.level < UInt16.size := by
    have := passes.1
    omega
  have level : (UInt16.ofNat result.level).toNat = result.level :=
    UInt16.toNat_ofNat_of_lt' small
  have same : Number.ofNat result.level = .ofWord (.ofNat result.level) := by
    rw [Number.ofWord, level]
  rw [resume, setRegister_of_literal destination_result passes.literal]
  simp only [bind, Except.bind, same]
  rw [setRegister_of_literal destination_level (by rw [level]; exact passes.1)]
  rfl

/-- At the check the calibration succeeds with the least level that passes, or leaves the game as it
is. -/
theorem finish_cases (plan : Calibration) (game : Adventure) :
    (∃ result, (plan.finish game).value = (.ok result, plan.passed game result) ∧
      plan.Asks game.memory result.m result.n result.target ∧
      IsLeast {level | Passes result.m result.n result.target level} result.level) ∨
    ((∃ failure, (plan.finish game).value = (.error failure, game)) ∧
      ∀ m n target, plan.Asks game.memory m n target → ∀ level, ¬ Passes m n target level) := by
  cases solved : solve (cell? game.memory plan.checkPc 2) (cell? game.memory plan.checkPc 5)
      (cell? game.memory plan.resumePc 3) with
  | error failure =>
    refine .inr ⟨⟨failure, by simp [finish, solved]⟩, ?_⟩
    intro m n target asks level passes
    -- If one level passes there is a least one, and then the search finds it.
    obtain ⟨least, smallest⟩ : ∃ least, IsLeast {level | Passes m n target level} least :=
      ⟨_, Nat.isLeast_find ⟨level, passes⟩⟩
    have found : solve (cell? game.memory plan.checkPc 2) (cell? game.memory plan.checkPc 5)
        (cell? game.memory plan.resumePc 3) = .ok ⟨m, n, target, least⟩ :=
      solve_eq_ok_iff.mpr ⟨cell?_eq_some_iff.mpr asks.first, cell?_eq_some_iff.mpr asks.second,
        cell?_eq_some_iff.mpr asks.wanted, smallest⟩
    rw [solved] at found
    cases found
  | ok result =>
    obtain ⟨first, second, wanted, least⟩ := solve_eq_ok_iff.mp solved
    refine .inl ⟨result, ?_, ⟨cell?_eq_some_iff.mp first, cell?_eq_some_iff.mp second,
      cell?_eq_some_iff.mp wanted⟩, least⟩
    simp [finish, solved, resume_of_passes least.1]

end Finish

/-- The game on its way to the check: the bogus level is set and the command is queued. -/
def primed (plan : Calibration) (bogus : UInt16) (game : Adventure) : Adventure :=
  let game : Adventure := { game with registers := game.registers.put 7 bogus }
  plan.command.elim game game.send

section Run

variable {plan : Calibration} {bogus : UInt16} (literal : bogus.toNat ≤ maxLiteral)
  (given : plan.bogusLevel = .ofWord bogus) (game : Adventure)

include literal given

theorem run_eq :
    plan.run game = (do
      let (answer, here) ← plan.approach plan.limit.budget (plan.primed bogus game) []
      match answer with
      | .error failure => return (.error failure, here)
      | .ok () => plan.finish here) := by
  have set : game.setRegister levelRegister (.ofWord bogus) =
      .ok { game with registers := game.registers.put 7 bogus } :=
    setRegister_of_literal destination_level literal
  rw [← given] at set
  rw [run, set]
  cases command : plan.command with
  | none =>
    rw [primed, command]
    rfl
  | some text =>
    rw [primed, command]
    rfl

/-- A calibration arrives at the check and succeeds with the least level that passes, or it fails and
leaves a machine that was only stepped. -/
theorem run_cases :
    (∃ count here result, count ≤ plan.limit.budget ∧
      Arrives plan.checkPc count (plan.primed bogus game) here ∧
      plan.Asks here.memory result.m result.n result.target ∧
      IsLeast {level | Passes result.m result.n result.target level} result.level ∧
      (plan.run game).value = (.ok result, plan.passed here result)) ∨
    ((∃ failure, ∃ count ≤ plan.limit.budget,
        (plan.run game).value = (.error failure, (plan.primed bogus game).after count)) ∧
      ∀ count ≤ plan.limit.budget, ∀ here,
        Arrives plan.checkPc count (plan.primed bogus game) here →
        ∀ m n target, plan.Asks here.memory m n target → ∀ level, ¬ Passes m n target level) := by
  rw [run_eq literal given]
  rcases approach_cases plan plan.limit.budget (plan.primed bogus game) [] with
    ⟨count, here, within, arrives, value⟩ | ⟨⟨failure, count, within, value⟩, never⟩
  · simp only [Logged.value_bind, value]
    rcases plan.finish_cases here with ⟨result, found, asks, least⟩ | ⟨⟨failure, left⟩, unsolved⟩
    · exact .inl ⟨count, here, result, within, arrives, asks, least, found⟩
    · refine .inr ⟨⟨failure, count, within, ?_⟩, ?_⟩
      · rw [left, arrives.commits.eq_after]
      · intro other _ there again
        obtain ⟨_, rfl⟩ := arrives.unique again
        exact unsolved
  · simp only [Logged.value_bind, value]
    refine .inr ⟨⟨failure, count, within, rfl⟩, ?_⟩
    intro other less here arrives
    exact absurd arrives (never other less here)

end Run

/-- Calibrating with a bogus level of fifteen bits, from any game. It succeeds exactly when plain
stepping comes to the check within the limit, all steps before it committed, and some level passes.
Then the game is the one at the check with the program counter behind the call, the target in the
first register and the least level that passes in the last one, and nothing else is changed. When it
fails the game was only stepped: it is never left behind the check with registers missing. -/
theorem run_passes_check {plan : Calibration} {bogus : UInt16} (literal : bogus.toNat ≤ maxLiteral)
    (given : plan.bogusLevel = .ofWord bogus) (game : Adventure) :
    ((∃ result last, (plan.run game).value = (.ok result, last)) ↔
      ∃ count ≤ plan.limit.budget, ∃ here,
        Arrives plan.checkPc count (plan.primed bogus game) here ∧
        ∃ m n target level, plan.Asks here.memory m n target ∧ Passes m n target level) ∧
    (∀ result last, (plan.run game).value = (.ok result, last) →
      ∃ count ≤ plan.limit.budget, ∃ here,
        Arrives plan.checkPc count (plan.primed bogus game) here ∧
        plan.Asks here.memory result.m result.n result.target ∧
        IsLeast {level | Passes result.m result.n result.target level} result.level ∧
        last = { here with
          pc := plan.resumePc
          registers := (here.registers.put 0 result.target).put 7 (.ofNat result.level) }) ∧
    ∀ failure last, (plan.run game).value = (.error failure, last) →
      ∃ count ≤ plan.limit.budget, last = (plan.primed bogus game).after count := by
  rcases run_cases literal given game with
    ⟨count, here, result, within, arrives, asks, least, value⟩ |
      ⟨⟨failure, count, within, value⟩, never⟩
  · refine ⟨⟨fun _ => ?_, fun _ => ⟨result, _, value⟩⟩, ?_, ?_⟩
    · exact ⟨count, within, here, arrives, _, _, _, _, asks, least.1⟩
    · intro found last same
      rw [value] at same
      cases same
      exact ⟨count, within, here, arrives, asks, least, rfl⟩
    · intro failure last same
      rw [value] at same
      cases same
  · refine ⟨⟨?_, ?_⟩, ?_, ?_⟩
    · rintro ⟨result, last, same⟩
      rw [value] at same
      cases same
    · rintro ⟨other, less, here, arrives, m, n, target, level, asks, passes⟩
      exact absurd passes (never other less here arrives m n target asks level)
    · intro result last same
      rw [value] at same
      cases same
    · intro found last same
      rw [value] at same
      cases same
      exact ⟨count, within, rfl⟩

/-- A `noop` in front of a check whose parameters are 1 and 0 and whose target is 5. -/
def nearCheck : State where
  memory := .ofWords #[21, 0, 0, 1, 0, 0, 0, 0, 0, 0, 0, 0, 0, 5]
  registers := .zero
  stack := []
  pc := .ofNat 0

/-- How the check behind the `noop` is calibrated. -/
def nearPlan : Calibration where
  checkPc := .ofNat 1
  resumePc := .ofNat 10
  limit := .ofNat 3

theorem nearCheck_read (address : Fin memorySize) :
    nearCheck.memory.read (.ofNat address) =
      .ok (#[21, 0, 0, 1, 0, 0, 0, 0, 0, 0, 0, 0, 0, 5].getD address 0) := by
  rw [Memory.read, Number.index?_ofNat address.isLt]
  exact congrArg Except.ok (Memory.get_ofWords _ address)

theorem asks_nearCheck : nearPlan.Asks nearCheck.memory 1 0 5 :=
  ⟨nearCheck_read 3, nearCheck_read 6, nearCheck_read 13⟩

/-- The machine that is about to execute the `noop`. -/
def nearGame : Adventure := .ofState nearCheck .empty .empty false

theorem step_nearGame : (nearPlan.primed 0xca nearGame).step =
    (nearPlan.primed 0xca nearGame).commit (.ofNat 1) := by
  have encoded : nearCheck.memory.word 0 = 21 :=
    (Memory.word_eq_get _ 0).trans (Memory.get_ofWords _ 0)
  have fetches : (nearPlan.primed 0xca nearGame).toState.Fetches .noop 0 := by
    refine ⟨rfl, by decide, ?_⟩
    have same : (nearPlan.primed 0xca nearGame).memory = nearCheck.memory := rfl
    rw [same, encoded]
    rfl
  have fetched : (nearPlan.primed 0xca nearGame).toState.fetch = .ok (.noop, 1) :=
    fetches.fetch_eq
  rw [Machine.step_of_plan fetched rfl]
  rfl

theorem arrives_nearGame : Arrives nearPlan.checkPc 1 (nearPlan.primed 0xca nearGame)
    ((nearPlan.primed 0xca nearGame).commit (.ofNat 1)).1 := by
  have arrived : Arrives nearPlan.checkPc 0 ((nearPlan.primed 0xca nearGame).commit (.ofNat 1)).1
      ((nearPlan.primed 0xca nearGame).commit (.ofNat 1)).1 := arrives_here rfl
  exact arrived.step nofun step_nearGame

theorem passes_nearCheck_iff {level : Nat} : Passes 1 0 5 level ↔ level = 4 := by
  have row : Teleporter.check level 1 0 = (level + 1) % 32768 := by
    rw [Teleporter.check_one, Teleporter.ratio, Nat.add_zero, Nat.mod_mod]
  change level ≤ 32767 ∧ Teleporter.check level 1 0 = 5 ↔ level = 4
  rw [row]
  omega

/-- The `noop` is executed, and then the level 4 passes, for `f 1 0` is one more than the level. -/
theorem run_passes_check_nearGame :
    (0xca : UInt16).toNat ≤ maxLiteral ∧ nearPlan.bogusLevel = .ofWord 0xca ∧
      ∃ last, (nearPlan.run nearGame).value = (.ok ⟨1, 0, 5, 4⟩, last) ∧
        last.pc = .ofNat 10 ∧ last.registers.toList = [5, 0, 0, 0, 0, 0, 0, 4] := by
  have literal : (0xca : UInt16).toNat ≤ maxLiteral := by decide
  have given : nearPlan.bogusLevel = .ofWord 0xca := rfl
  refine ⟨literal, given, ?_⟩
  obtain ⟨succeeds, leaves, _⟩ := run_passes_check literal given nearGame
  obtain ⟨⟨m, n, target, level⟩, last, ran⟩ := succeeds.mpr
    ⟨1, by decide, _, arrives_nearGame, 1, 0, 5, 4, asks_nearCheck, passes_nearCheck_iff.mpr rfl⟩
  obtain ⟨count, _, here, arrives, asks, least, rfl⟩ := leaves _ last ran
  obtain ⟨rfl, rfl⟩ := arrives.unique arrives_nearGame
  obtain rfl : m = 1 := Except.ok.inj (asks.first.symm.trans asks_nearCheck.first)
  obtain rfl : n = 0 := Except.ok.inj (asks.second.symm.trans asks_nearCheck.second)
  obtain rfl : target = 5 := Except.ok.inj (asks.wanted.symm.trans asks_nearCheck.wanted)
  obtain rfl : level = 4 := passes_nearCheck_iff.mp least.1
  exact ⟨_, ran, rfl, by decide +kernel⟩

end Calibration

end AdventureMachine
