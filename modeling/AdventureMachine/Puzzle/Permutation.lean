/-! Visiting the orderings of some items, each once, by exchanging two of them between visits. A
counter for every position tells how often its item was exchanged since a position behind it last
was. A position that has had all its exchanges starts afresh, and the next one is looked at. -/
namespace AdventureMachine.Permutation

variable {m : Type → Type} {α : Type}

/-- The position that changes places with `top` in its exchange number `round`. -/
def partner (top round : Nat) : Nat := if top % 2 = 0 then 0 else round

/-- How many orderings some items have. -/
def orderings : Nat → Nat
  | 0 => 1
  | count + 1 => (count + 1) * orderings count

/-- The exchanges to come at the positions from `position` up to, not including, `size`, each
together with those that it starts again at the positions before it. -/
def remaining (counters : Array Nat) (position : Nat) : (size : Nat) → Nat
  | 0 => 0
  | size + 1 => remaining counters position size +
      if position ≤ size then (size - counters.getD size 0) * orderings size else 0

section Remaining

variable {counters : Array Nat} {position size : Nat}

theorem getD_setIfInBounds (counters : Array Nat) (position value : Nat) (other : Nat) :
    (counters.setIfInBounds position value).getD other 0 =
      if other = position ∧ position < counters.size then value else counters.getD other 0 := by
  rw [Array.getD_eq_getD_getElem?, Array.getD_eq_getD_getElem?, Array.getElem?_setIfInBounds]
  by_cases same : position = other
  · subst same
    by_cases inside : position < counters.size
    · simp [inside]
    · simp [inside]
  · simp [same, Ne.symm same]

/-- A position without exchanges to come does not count. -/
theorem remaining_carry (spent : position ≤ counters.getD position 0) (size : Nat) :
    remaining (counters.setIfInBounds position 0) (position + 1) size =
      remaining counters position size := by
  induction size with
  | zero => rfl
  | succ size ih =>
    rw [remaining, remaining, ih, getD_setIfInBounds]
    by_cases here : size = position
    · subst here
      rw [if_neg (by omega), Nat.sub_eq_zero_of_le spent, Nat.zero_mul, ite_self]
    · have order : position + 1 ≤ size ↔ position ≤ size := by omega
      simp only [here, false_and, ↓reduceIte, order]

theorem remaining_of_le (before : size ≤ position) : remaining counters position size = 0 := by
  induction size with
  | zero => rfl
  | succ size ih => rw [remaining, ih (by omega), if_neg (by omega)]

theorem remaining_lt_orderings (counters : Array Nat) (size : Nat) :
    remaining counters 1 size < orderings size := by
  induction size with
  | zero => exact Nat.one_pos
  | succ size ih =>
    have most : (size - counters.getD size 0) * orderings size ≤ size * orderings size :=
      Nat.mul_le_mul_right _ (Nat.sub_le _ _)
    rw [remaining, orderings, Nat.succ_mul]
    split <;> omega

/-- An exchange starts the positions before it again, which is less than it stands for. -/
theorem remaining_exchange (due : counters.getD position 0 < position)
    (counted : position < counters.size) (inside : position < size) :
    remaining (counters.setIfInBounds position (counters.getD position 0 + 1)) 1 size <
      remaining counters position size := by
  induction size with
  | zero => omega
  | succ size ih =>
    rw [remaining, remaining]
    by_cases here : size = position
    · subst here
      have raised : (counters.setIfInBounds size (counters.getD size 0 + 1)).getD size 0 =
          counters.getD size 0 + 1 := by rw [getD_setIfInBounds, if_pos ⟨rfl, counted⟩]
      have lower := remaining_lt_orderings
        (counters.setIfInBounds size (counters.getD size 0 + 1)) size
      have fewer : size - counters.getD size 0 = size - (counters.getD size 0 + 1) + 1 := by omega
      rw [raised, remaining_of_le (Nat.le_refl size), if_pos (by omega), if_pos (Nat.le_refl size),
        fewer, Nat.succ_mul]
      omega
    · have kept : (counters.setIfInBounds position (counters.getD position 0 + 1)).getD size 0 =
          counters.getD size 0 := by rw [getD_setIfInBounds, if_neg fun both => here both.1]
      have earlier := ih (by omega)
      rw [kept, if_pos (by omega), if_pos (by omega)]
      omega

end Remaining

/-- An ordering on the way through all of them. -/
structure Course (α : Type) where
  ordering : Array α
  /-- The exchanges made at each position. -/
  counters : Array Nat
  /-- The position that is looked at. -/
  position : Nat
  counted : counters.size = ordering.size

namespace Course

/-- The way begins at the given ordering. -/
def start (items : Array α) : Course α := ⟨items, Array.replicate items.size 0, 1, by simp⟩

/-- The exchanges made at the position that is looked at. -/
def count (course : Course α) : Nat := course.counters.getD course.position 0

/-- The course behind an exchange at the position that is looked at: it goes on at the first. -/
def exchange (course : Course α) : Course α where
  ordering :=
    course.ordering.swapIfInBounds (partner course.position course.count) course.position
  counters := course.counters.setIfInBounds course.position (course.count + 1)
  position := 1
  counted := by simp [course.counted]

/-- The course behind a position that has had its exchanges: it starts afresh. -/
def carry (course : Course α) : Course α where
  ordering := course.ordering
  counters := course.counters.setIfInBounds course.position 0
  position := course.position + 1
  counted := by simp [course.counted]

/-- The exchanges to come. -/
def remaining (course : Course α) : Nat :=
  Permutation.remaining course.counters course.position course.ordering.size

theorem remaining_exchange {course : Course α} (inside : course.position < course.ordering.size)
    (due : course.count < course.position) : course.exchange.remaining < course.remaining := by
  have size : course.exchange.ordering.size = course.ordering.size := by simp [exchange]
  rw [remaining, size]
  exact Permutation.remaining_exchange due (course.counted ▸ inside) inside

theorem remaining_carry {course : Course α} (spent : ¬ course.count < course.position) :
    course.carry.remaining = course.remaining :=
  Permutation.remaining_carry (Nat.le_of_not_lt spent) _

/-- Goes on until an ordering is accepted or every position has had its exchanges. -/
@[specialize]
def search [Monad m] (accept : Array α → m Bool) (course : Course α) : m (Option (Array α)) :=
  if _inside : course.position < course.ordering.size then
    if _due : course.count < course.position then do
      if ← accept course.exchange.ordering then return some course.exchange.ordering
      else search accept course.exchange
    else search accept course.carry
  else return none
termination_by (course.remaining, course.ordering.size - course.position)
decreasing_by
  · exact .left _ _ (remaining_exchange _inside _due)
  · rw [remaining_carry _due]
    exact .right _ (Nat.sub_lt_sub_left _inside (Nat.lt_succ_self _))

end Course

/-- The first visited ordering that is accepted. Acceptance may depend on what was visited before,
through the effects of `m`. -/
@[specialize]
def search [Monad m] (accept : Array α → m Bool) (items : Array α) : m (Option (Array α)) := do
  if ← accept items then return some items
  else (Course.start items).search accept

/-- The first visited ordering that satisfies a predicate. -/
def find? (accept : Array α → Bool) (items : Array α) : Option (Array α) :=
  Id.run (search (fun ordering => pure (accept ordering)) items)

end AdventureMachine.Permutation
