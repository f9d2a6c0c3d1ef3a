import AdventureMachine.Puzzle.Coins
import Mathlib.Data.Nat.Factorial.Basic
import Mathlib.GroupTheory.Perm.Cycle.Basic

/-! The orderings that a search visits, as rearrangements of positions. All the exchanges at the
positions up to some position are a tour of these; between two exchanges at a position, the loop
tours the positions before it. The argument follows the item that stands at the last position: what
a tour leaves behind alternates between one exchange of the ends and a cycle through all positions,
and in both cases the exchanges bring every item to the last position once. -/
namespace AdventureMachine.Permutation

open Equiv (Perm swap)

section Cycles

variable {ι : Type} [DecidableEq ι]

/-- An exchange with a position outside takes it into a cycle. -/
theorem isCycleOn_mul_swap {cycle : Perm ι} {inside : Finset ι} {member outsider : ι}
    (cyclic : cycle.IsCycleOn inside) (within : member ∈ inside) (outside : outsider ∉ inside)
    (fixed : cycle outsider = outsider) :
    (cycle * swap member outsider).IsCycleOn (insert outsider inside : Finset ι) := by
  have enters : (cycle * swap member outsider) member = outsider := by simp [fixed]
  have leaves : (cycle * swap member outsider) outsider = cycle member := by simp
  have other {i : ι} (apart : i ≠ member) (present : i ∈ inside) :
      (cycle * swap member outsider) i = cycle i := by
    have foreign : i ≠ outsider := fun same => outside (same ▸ present)
    rw [Equiv.Perm.mul_apply, Equiv.swap_apply_of_ne_of_ne apart foreign]
  have onward {i : ι} (present : i ∈ inside) :
      (cycle * swap member outsider).SameCycle i (cycle i) := by
    by_cases same : i = member
    · subst same
      refine ⟨2, ?_⟩
      rw [zpow_two, Equiv.Perm.mul_apply, enters, leaves]
    · exact ⟨1, by rw [zpow_one, other same present]⟩
  have reaches (count : ℕ) {i : ι} (present : i ∈ inside) :
      (cycle * swap member outsider).SameCycle i ((cycle ^ count) i) := by
    induction count with
    | zero => exact ⟨0, rfl⟩
    | succ count ih =>
      rw [pow_succ', Equiv.Perm.mul_apply]
      exact ih.trans (onward ((cyclic.1.perm_pow count).mapsTo present))
  have joined {i : ι} (present : i ∈ insert outsider inside) :
      (cycle * swap member outsider).SameCycle member i := by
    rcases Finset.mem_insert.mp present with rfl | present
    · exact ⟨1, by rw [zpow_one, enters]⟩
    · obtain ⟨count, -, rfl⟩ := cyclic.exists_pow_eq within present
      exact reaches count within
  refine ⟨?_, fun i first j second => (joined first).symm.trans (joined second)⟩
  rw [Finset.coe_insert]
  have kept : Set.BijOn cycle (insert outsider inside) (insert outsider inside) := by
    nth_rewrite 2 [← fixed]
    exact cyclic.1.insert (by rwa [fixed])
  exact kept.comp (Equiv.bijOn_swap (Set.mem_insert_of_mem _ within) (Set.mem_insert _ _))

end Cycles

/-- The rearrangement moves positions below `count` only. -/
def Within (count : ℕ) (order : Perm ℕ) : Prop := ∀ i, count ≤ i → order i = i

namespace Within

variable {count : ℕ} {first second : Perm ℕ}

theorem one (count : ℕ) : Within count 1 := fun _ _ => rfl

theorem mul (left : Within count first) (right : Within count second) :
    Within count (first * second) := by
  intro i beyond
  rw [Equiv.Perm.mul_apply, right i beyond, left i beyond]

theorem inv (left : Within count first) : Within count first⁻¹ := by
  intro i beyond
  rw [Equiv.Perm.inv_eq_iff_eq, left i beyond]

theorem pow (left : Within count first) (times : ℕ) : Within count (first ^ times) := by
  induction times with
  | zero => exact one count
  | succ times ih => exact ih.mul left

theorem mono {more : ℕ} (left : Within count first) (le : count ≤ more) : Within more first :=
  fun i beyond => left i (le.trans beyond)

theorem lt (left : Within count first) {i : ℕ} (below : i < count) : first i < count := by
  by_contra beyond
  have fixed := left (first i) (Nat.le_of_not_lt beyond)
  rw [first.injective fixed] at beyond
  exact beyond below

end Within

theorem within_swap {i j count : ℕ} (first : i < count) (second : j < count) :
    Within count (swap i j) := by
  intro k beyond
  exact Equiv.swap_apply_of_ne_of_ne (by omega) (by omega)

section Rounds

/-- The rearrangement at the start of a round, where `inner` is what a tour of the positions below
`top` leaves behind. -/
def base (inner : Perm ℕ) (top : ℕ) : ℕ → Perm ℕ
  | 0 => 1
  | round + 1 => base inner top round * inner * swap (partner top round) top

/-- What a tour of the positions up to `top` leaves behind. -/
def last : ℕ → Perm ℕ
  | 0 => 1
  | top + 1 => base (last top) (top + 1) (top + 1) * last top

/-- The rearrangements that a tour goes through, the present one first. -/
def tour : ℕ → List (Perm ℕ)
  | 0 => [1]
  | top + 1 => (List.range (top + 2)).flatMap fun round =>
      (tour top).map (base (last top) (top + 1) round * ·)

theorem within_base {inner : Perm ℕ} {top round : ℕ} (kept : Within (top + 1) inner)
    (le : round ≤ top + 1) : Within (top + 2) (base inner (top + 1) round) := by
  induction round with
  | zero => exact Within.one _
  | succ round ih =>
    have before : partner (top + 1) round < top + 2 := by
      rw [partner]
      split <;> omega
    exact ((ih (by omega)).mul (kept.mono (by omega))).mul (within_swap before (by omega))

theorem within_last (top : ℕ) : Within (top + 1) (last top) := by
  induction top with
  | zero => exact Within.one _
  | succ top ih => exact (within_base ih le_rfl).mul (ih.mono (by omega))

end Rounds

section Star

/-- Exchanges of several positions with a centre. -/
def star (centre : ℕ) (leaf : ℕ → ℕ) : ℕ → Perm ℕ
  | 0 => 1
  | count + 1 => star centre leaf count * swap centre (leaf count)

variable {centre : ℕ} {leaf : ℕ → ℕ} {count : ℕ}

theorem star_of_ne {i : ℕ} (other : i ≠ centre) (apart : ∀ j < count, leaf j ≠ i) :
    star centre leaf count i = i := by
  induction count with
  | zero => rfl
  | succ count ih =>
    rw [star, Equiv.Perm.mul_apply,
      Equiv.swap_apply_of_ne_of_ne other (apart count (by omega)).symm]
    exact ih fun j earlier => apart j (by omega)

variable (injective : Function.Injective leaf)

include injective

theorem star_centre (apart : leaf count ≠ centre) :
    star centre leaf (count + 1) centre = leaf count := by
  rw [star, Equiv.Perm.mul_apply, Equiv.swap_apply_left]
  exact star_of_ne apart fun j earlier same => by
    have := injective same
    omega

theorem isCycleOn_star (apart : ∀ j < count, leaf j ≠ centre) :
    (star centre leaf count).IsCycleOn
      (insert centre ((Finset.range count).image leaf) : Finset ℕ) := by
  induction count with
  | zero => simp [star]
  | succ count ih =>
    have fresh : leaf count ∉ insert centre ((Finset.range count).image leaf) := by
      simp only [Finset.mem_insert, Finset.mem_image, Finset.mem_range, not_or, not_exists, not_and]
      refine ⟨apart count (by omega), fun j earlier same => ?_⟩
      have := injective same
      omega
    have fixed : star centre leaf count (leaf count) = leaf count := by
      apply star_of_ne (apart count (by omega))
      intro j earlier same
      have := injective same
      omega
    have extended := isCycleOn_mul_swap (ih fun j earlier => apart j (by omega))
      (Finset.mem_insert_self _ _) fresh fixed
    rwa [Finset.insert_comm, ← Finset.image_insert, ← Finset.range_add_one] at extended

end Star

section Parity

variable {top : ℕ}

/-- Two exchanges of the ends cancel. -/
theorem pow_ends (even : top % 2 = 0) (i : ℕ) :
    (swap 0 top ^ (i + 1)) i = swap 0 top i := by
  have square : swap 0 top ^ 2 = 1 := by rw [pow_two, Equiv.swap_mul_self]
  by_cases first : i = 0
  · rw [first, Nat.zero_add, pow_one]
  · by_cases final : i = top
    · have half : i + 1 = 2 * (top / 2) + 1 := by omega
      rw [half, pow_succ, pow_mul, square, one_pow, one_mul]
    · have fixed : swap 0 top i = i := Equiv.swap_apply_of_ne_of_ne first final
      rw [fixed]
      exact Equiv.Perm.pow_apply_eq_self_of_apply_eq_self fixed _

/-- Between tours that exchange the ends, every position in turn changes places with the last. -/
theorem base_ends (even : top % 2 = 0) {round : ℕ} (le : round ≤ top + 1) :
    base (swap 0 top) (top + 1) round =
      star (top + 1) (swap 0 top) round * swap 0 top ^ round := by
  induction round with
  | zero => rfl
  | succ round ih =>
    have odd : (top + 1) % 2 ≠ 0 := by omega
    have beyond : (swap 0 top ^ (round + 1)) (top + 1) = top + 1 :=
      (within_swap (by omega) (by omega) : Within (top + 1) (swap 0 top)).pow _ _ le_rfl
    have carried : swap 0 top ^ (round + 1) * swap round (top + 1) =
        swap (top + 1) (swap 0 top round) * swap 0 top ^ (round + 1) := by
      rw [Equiv.mul_swap_eq_swap_mul, beyond, pow_ends even, Equiv.swap_comm]
    rw [base, ih (by omega), partner, if_neg odd, mul_assoc (star ..), ← pow_succ, mul_assoc, carried,
      star, mul_assoc]

theorem swap_ends_ne (top i : ℕ) (le : i ≤ top) : swap 0 top i ≠ top + 1 := by
  have inside : Within (top + 1) (swap 0 top) := within_swap (by omega) (by omega)
  have := inside.lt (Nat.lt_succ_of_le le)
  omega

/-- After such rounds every position has moved, in one cycle. -/
theorem last_of_ends (even : top % 2 = 0) (ends : last top = swap 0 top) :
    last (top + 1) = star (top + 1) (swap 0 top) (top + 1) := by
  have half : top + 1 + 1 = 2 * (top / 2 + 1) := by omega
  rw [last, ends, base_ends even le_rfl, mul_assoc, ← pow_succ, half, pow_mul, pow_two,
    Equiv.swap_mul_self, one_pow, mul_one]

theorem isCycleOn_last_of_ends (even : top % 2 = 0) (ends : last top = swap 0 top) :
    (last (top + 1)).IsCycleOn (Finset.range (top + 2)) := by
  have inside : Within (top + 1) (swap 0 top) := within_swap (by omega) (by omega)
  have image : (Finset.range (top + 1)).image (swap 0 top) = Finset.range (top + 1) := by
    apply Finset.eq_of_subset_of_card_le
    · intro i member
      obtain ⟨j, below, rfl⟩ := Finset.mem_image.mp member
      exact Finset.mem_range.mpr (inside.lt (Finset.mem_range.mp below))
    · rw [Finset.card_image_of_injective _ (swap 0 top).injective]
  have cyclic : (star (top + 1) (swap 0 top) (top + 1)).IsCycleOn _ :=
    isCycleOn_star (swap 0 top).injective fun j below => swap_ends_ne top j (by omega)
  rwa [image, ← Finset.range_add_one, ← last_of_ends even ends] at cyclic

/-- Rounds behind tours that turn a cycle repeat one cycle through the last position too. -/
theorem base_cycle (odd : top % 2 = 1) (inner : Perm ℕ) (round : ℕ) :
    base inner (top + 1) round = (inner * swap 0 (top + 1)) ^ round := by
  induction round with
  | zero => rfl
  | succ round ih =>
    have even : (top + 1) % 2 = 0 := by omega
    rw [base, ih, partner, if_pos even, mul_assoc, pow_succ]

theorem isCycleOn_round (cyclic : (last top).IsCycleOn (Finset.range (top + 1))) :
    (last top * swap 0 (top + 1)).IsCycleOn (Finset.range (top + 2)) := by
  rw [Finset.range_add_one (n := top + 1)]
  exact isCycleOn_mul_swap cyclic (by simp) (by simp) (within_last top _ le_rfl)

theorem last_of_cycle (odd : top % 2 = 1) (cyclic : (last top).IsCycleOn (Finset.range (top + 1))) :
    last (top + 1) = swap 0 (top + 1) := by
  have closed : (last top * swap 0 (top + 1)) ^ (top + 2) = 1 := by
    ext i
    by_cases below : i < top + 2
    · have turned := (isCycleOn_round cyclic).pow_card_apply (Finset.mem_range.mpr below)
      rwa [Finset.card_range] at turned
    · have inside : Within (top + 2) (last top * swap 0 (top + 1)) :=
        ((within_last top).mono (by omega)).mul (within_swap (by omega) (by omega))
      exact inside.pow (top + 2) i (by omega)
  calc last (top + 1)
      = (last top * swap 0 (top + 1)) ^ (top + 1) * last top := by rw [last, base_cycle odd]
    _ = (last top * swap 0 (top + 1)) ^ (top + 1) * (last top * swap 0 (top + 1)) *
          swap 0 (top + 1) := by
        rw [mul_assoc, mul_assoc (last top), Equiv.swap_mul_self, mul_one]
    _ = swap 0 (top + 1) := by rw [← pow_succ, closed, one_mul]

/-- A tour exchanges the ends or turns a cycle, by turns. -/
theorem last_shape (top : ℕ) : (top % 2 = 0 → last top = swap 0 top) ∧
    (top % 2 = 1 → (last top).IsCycleOn (Finset.range (top + 1))) := by
  induction top with
  | zero => exact ⟨fun _ => Equiv.swap_self 0 |>.symm, nofun⟩
  | succ top ih =>
    refine ⟨fun even => ?_, fun odd => ?_⟩
    · have odd : top % 2 = 1 := by omega
      exact last_of_cycle odd (ih.2 odd)
    · have even : top % 2 = 0 := by omega
      exact isCycleOn_last_of_ends even (ih.1 even)

/-- Every round has another item at the last position. -/
theorem base_top_injective (top : ℕ) :
    Set.InjOn (fun round => base (last top) (top + 1) round (top + 1)) (Set.Iio (top + 2)) := by
  rcases Nat.mod_two_eq_zero_or_one top with even | odd
  · have inside : Within (top + 1) (swap 0 top) := within_swap (by omega) (by omega)
    have shown {round : ℕ} (le : round ≤ top + 1) : base (last top) (top + 1) round (top + 1) =
        star (top + 1) (swap 0 top) round (top + 1) := by
      rw [(last_shape top).1 even, base_ends even le, Equiv.Perm.mul_apply,
        inside.pow round _ le_rfl]
    have later {round : ℕ} (le : round ≤ top) :
        base (last top) (top + 1) (round + 1) (top + 1) = swap 0 top round := by
      rw [shown (by omega), star_centre (swap 0 top).injective (swap_ends_ne top round le)]
    intro first below second bound same
    simp only [Set.mem_Iio] at below bound same
    cases first with
    | zero =>
      cases second with
      | zero => rfl
      | succ second =>
        rw [later (by omega)] at same
        exact absurd same.symm (swap_ends_ne top second (by omega))
    | succ first =>
      cases second with
      | zero =>
        rw [later (by omega)] at same
        exact absurd same (swap_ends_ne top first (by omega))
      | succ second =>
        rw [later (by omega), later (by omega)] at same
        rw [(swap 0 top).injective same]
  · intro first below second bound same
    simp only [Set.mem_Iio] at below bound
    simp only [base_cycle odd] at same
    have cyclic := isCycleOn_round ((last_shape top).2 odd)
    rw [cyclic.pow_apply_eq_pow_apply (Finset.self_mem_range_succ _), Finset.card_range] at same
    exact Nat.ModEq.eq_of_lt_of_lt same below bound

end Parity

section Tour

theorem length_tour (top : ℕ) : (tour top).length = (top + 1).factorial := by
  induction top with
  | zero => rfl
  | succ top ih =>
    rw [tour, List.length_flatMap]
    simp [ih, Nat.factorial_succ (top + 1)]

theorem tour_succ (top : ℕ) : tour (top + 1) = tour top ++ (List.range (top + 1)).flatMap fun round =>
    (tour top).map (base (last top) (top + 1) (round + 1) * ·) := by
  rw [tour, List.range_succ_eq_map, List.flatMap_cons, List.flatMap_map]
  simp [base]

theorem head?_tour (top : ℕ) : (tour top).head? = some 1 := by
  induction top with
  | zero => rfl
  | succ top ih =>
    rw [tour_succ, List.head?_append, ih]
    rfl

/-- A rearrangement belongs to the round in which the same item is last. -/
theorem exists_round {top : ℕ} {order : Perm ℕ} (inside : Within (top + 2) order) :
    ∃ round < top + 2, base (last top) (top + 1) round (top + 1) = order (top + 1) := by
  have onto : (Finset.range (top + 2)).image
      (fun round => base (last top) (top + 1) round (top + 1)) = Finset.range (top + 2) := by
    apply Finset.eq_of_subset_of_card_le
    · intro i member
      obtain ⟨round, below, rfl⟩ := Finset.mem_image.mp member
      have kept := within_base (within_last top) (Nat.le_of_lt_succ (Finset.mem_range.mp below))
      exact Finset.mem_range.mpr (kept.lt (by omega))
    · rw [Finset.card_image_of_injOn (by simpa using base_top_injective top)]
  have final : order (top + 1) ∈ Finset.range (top + 2) :=
    Finset.mem_range.mpr (inside.lt (by omega))
  rw [← onto] at final
  obtain ⟨round, below, same⟩ := Finset.mem_image.mp final
  exact ⟨round, Finset.mem_range.mp below, same⟩

theorem mem_tour {top : ℕ} {order : Perm ℕ} : order ∈ tour top ↔ Within (top + 1) order := by
  induction top generalizing order with
  | zero =>
    rw [tour, List.mem_singleton]
    refine ⟨fun same => same ▸ Within.one _, fun inside => Equiv.ext fun i => ?_⟩
    cases i with
    | zero => exact Nat.lt_one_iff.mp (inside.lt Nat.one_pos)
    | succ i => exact inside _ (by omega)
  | succ top ih =>
    simp only [tour, List.mem_flatMap, List.mem_range, List.mem_map]
    constructor
    · rintro ⟨round, below, inner, member, rfl⟩
      exact (within_base (within_last top) (by omega)).mul ((ih.mp member).mono (by omega))
    · intro inside
      obtain ⟨round, below, same⟩ := exists_round inside
      refine ⟨round, below, (base (last top) (top + 1) round)⁻¹ * order, ih.mpr ?_, by simp⟩
      intro i beyond
      rw [Equiv.Perm.mul_apply, Equiv.Perm.inv_eq_iff_eq]
      rcases Nat.eq_or_lt_of_le beyond with rfl | beyond
      · exact same.symm
      · rw [inside i beyond, within_base (within_last top) (by omega) i beyond]

theorem nodup_tour (top : ℕ) : (tour top).Nodup := by
  induction top with
  | zero => exact List.nodup_singleton 1
  | succ top ih =>
    rw [tour, List.nodup_flatMap]
    refine ⟨fun round _ => ih.map (mul_right_injective _), ?_⟩
    refine List.nodup_range.imp_of_mem fun {first second} left right differ => ?_
    intro order member other
    obtain ⟨inner, within, rfl⟩ := List.mem_map.mp member
    obtain ⟨outer, outside, same⟩ := List.mem_map.mp other
    -- both rounds have the same item at the last position
    have final := congrArg (· (top + 1)) same
    simp only [Equiv.Perm.mul_apply, mem_tour.mp within _ le_rfl, mem_tour.mp outside _ le_rfl]
      at final
    exact differ
      (base_top_injective top (List.mem_range.mp left) (List.mem_range.mp right) final.symm)

end Tour

section Arrays

variable {α : Type}

/-- The items in another order. -/
def rearrange (items : Array α) (order : Perm (Fin items.size)) : Array α :=
  Array.ofFn fun i => items[order i]

/-- The items in another order of all natural numbers, as far as it leaves them in place. -/
def arrange (items : Array α) (order : Perm ℕ) : Array α :=
  Array.ofFn fun i : Fin items.size => items.getD (order i) items[i]

@[simp]
theorem size_arrange (items : Array α) (order : Perm ℕ) : (arrange items order).size = items.size :=
  Array.size_ofFn

theorem getElem?_arrange {items : Array α} {order : Perm ℕ} (inside : Within items.size order)
    (i : ℕ) : (arrange items order)[i]? = items[order i]? := by
  by_cases below : i < items.size
  · have moved := inside.lt below
    simp [arrange, below, moved, Array.getD]
  · have beyond := Nat.le_of_not_lt below
    rw [inside i beyond, Array.getElem?_eq_none beyond,
      Array.getElem?_eq_none (by simpa using beyond)]

theorem arrange_one (items : Array α) : arrange items 1 = items :=
  Array.ext_getElem? (getElem?_arrange (Within.one _))

theorem arrange_swap {items : Array α} {order : Perm ℕ} (inside : Within items.size order)
    {i j : ℕ} (first : i < items.size) (second : j < items.size) :
    (arrange items order).swapIfInBounds i j = arrange items (order * swap i j) := by
  have exchanged := inside.mul (within_swap first second)
  rw [Array.swapIfInBounds, dif_pos (by simpa using first), dif_pos (by simpa using second)]
  apply Array.ext_getElem?
  intro k
  rw [getElem?_arrange exchanged, Array.getElem?_swap, Equiv.Perm.mul_apply, Equiv.swap_apply_def]
  by_cases right : k = j
  · subst right
    by_cases left : k = i <;> simp [left, ← getElem?_arrange inside, first]
  · by_cases left : k = i
    · subst left
      simp [Ne.symm right, ← getElem?_arrange inside, second]
    · simp [left, right, Ne.symm left, Ne.symm right, ← getElem?_arrange inside]

end Arrays

section Trail

variable {α : Type}

theorem tour_eq_cons (top : ℕ) : tour top = 1 :: (tour top).tail :=
  (List.cons_head?_tail (head?_tour top)).symm

/-- The exchange behind the exchanges at the positions before starts the next round. -/
theorem arrange_exchange {items : Array α} {order : Perm ℕ} (inside : Within items.size order)
    {top round : ℕ} (fits : top + 1 < items.size) (bound : round < top + 1) :
    (arrange items (order * (base (last top) (top + 1) round * last top))).swapIfInBounds
        (partner (top + 1) round) (top + 1) =
      arrange items (order * base (last top) (top + 1) (round + 1)) := by
  have swept : Within items.size (base (last top) (top + 1) round * last top) :=
    ((within_base (within_last top) (by omega)).mul ((within_last top).mono (by omega))).mono
      (by omega)
  have before : partner (top + 1) round < items.size := by
    rw [partner]
    split <;> omega
  rw [arrange_swap (inside.mul swept) before fits, base, mul_assoc order]

/-- The orderings of one round. -/
def ordersOf (items : Array α) (order : Perm ℕ) (top round : ℕ) : List (Array α) :=
  (tour top).map fun step => arrange items (order * (base (last top) (top + 1) round * step))

theorem ordersOf_eq_cons (items : Array α) (order : Perm ℕ) (top round : ℕ) :
    ordersOf items order top round =
      arrange items (order * base (last top) (top + 1) round) ::
        (tour top).tail.map fun step =>
          arrange items (order * base (last top) (top + 1) round * step) := by
  rw [ordersOf, tour_eq_cons, List.map_cons, List.tail_cons, mul_one]
  simp only [mul_assoc]

namespace Course

/-- The orderings that are still visited when all of them are rejected. -/
def trail (course : Course α) : List (Array α) :=
  if _inside : course.position < course.ordering.size then
    if _due : course.count < course.position then
      course.exchange.ordering :: trail course.exchange
    else trail course.carry
  else []
termination_by (course.remaining, course.ordering.size - course.position)
decreasing_by
  · exact .left _ _ (remaining_exchange _inside _due)
  · rw [remaining_carry _due]
    exact .right _ (Nat.sub_lt_sub_left _inside (Nat.lt_succ_self _))

theorem trail_of_due {course : Course α} (inside : course.position < course.ordering.size)
    (due : course.count < course.position) :
    course.trail = course.exchange.ordering :: course.exchange.trail := by
  rw [trail, dif_pos inside, dif_pos due]

theorem trail_of_spent {course : Course α} (inside : course.position < course.ordering.size)
    (spent : ¬ course.count < course.position) : course.trail = course.carry.trail := by
  rw [trail, dif_pos inside, dif_neg spent]

theorem trail_of_le {course : Course α} (outside : course.ordering.size ≤ course.position) :
    course.trail = [] := by
  rw [trail, dif_neg (Nat.not_lt.mpr outside)]

/-- The loop tries the orderings of its trail up to the first that is accepted. -/
theorem search_eq {m : Type → Type} [Monad m] [LawfulMonad m] (accept : Array α → m Bool)
    (course : Course α) : course.search accept = course.trail.findM? accept := by
  fun_induction trail course with
  | case1 course inside due ih =>
    rw [search, dif_pos inside, dif_pos due, List.findM?, ih]
    refine bind_congr fun accepted => ?_
    cases accepted <;> rfl
  | case2 course inside spent ih => rw [search, dif_pos inside, dif_neg spent, ih]
  | case3 course outside => rw [search, dif_neg outside, List.findM?]

/-- A course with the items in some order. -/
def arranged {items : Array α} (order : Perm ℕ) {counters : Array ℕ}
    (counted : counters.size = items.size) (position : ℕ) : Course α :=
  ⟨arrange items order, counters, position, by rw [counted, size_arrange]⟩

variable {items : Array α} {order : Perm ℕ} {counters : Array ℕ} {top round : ℕ}

theorem size_setIfInBounds (counted : counters.size = items.size) (position value : ℕ) :
    (counters.setIfInBounds position value).size = items.size := by
  rw [Array.size_setIfInBounds, counted]

theorem size_arranged (order : Perm ℕ) (counted : counters.size = items.size) (position : ℕ) :
    (arranged order counted position).ordering.size = items.size :=
  size_arrange items order

/-- An exchange starts a round. -/
theorem trail_exchange (counted : counters.size = items.size) (inside : Within items.size order)
    (fits : top + 1 < items.size) (bound : round < top + 1)
    (made : counters.getD (top + 1) 0 = round) :
    (arranged (order * (base (last top) (top + 1) round * last top)) counted (top + 1)).trail =
      arrange items (order * base (last top) (top + 1) (round + 1)) ::
        (arranged (order * base (last top) (top + 1) (round + 1))
          (size_setIfInBounds counted (top + 1) (round + 1)) 1).trail := by
  have exchanged : (arranged (order * (base (last top) (top + 1) round * last top)) counted
      (top + 1)).exchange = arranged (order * base (last top) (top + 1) (round + 1))
        (size_setIfInBounds counted (top + 1) (round + 1)) 1 := by
    subst made
    rw [arranged, Course.mk.injEq]
    exact ⟨arrange_exchange inside fits bound, rfl, rfl⟩
  rw [trail_of_due, exchanged]
  · rfl
  · rwa [size_arranged]
  · exact made.symm ▸ bound

/-- A position that has made all its exchanges is left. -/
theorem trail_carry (counted : counters.size = items.size) {position : ℕ}
    (fits : position < items.size) (made : counters.getD position 0 = position) :
    (arranged order counted position).trail =
      (arranged order (size_setIfInBounds counted position 0) (position + 1)).trail := by
  rw [trail_of_spent]
  · rfl
  · rwa [size_arranged]
  · exact Nat.not_lt.mpr made.ge

end Course

/-- The positions up to `top` have made no exchanges. -/
def Fresh (counters : Array ℕ) (top : ℕ) : Prop := ∀ i ≤ top, counters.getD i 0 = 0

variable {items : Array α} {order : Perm ℕ} {counters : Array ℕ} {top round : ℕ}

theorem Fresh.set (fresh : Fresh counters top) (value : ℕ) :
    Fresh (counters.setIfInBounds (top + 1) value) top := by
  intro i le
  rw [getD_setIfInBounds, if_neg (by omega), fresh i le]

theorem Fresh.set_zero (fresh : Fresh counters top) : counters.setIfInBounds top 0 = counters := by
  have zero := fresh top le_rfl
  rw [Array.getD_eq_getD_getElem?] at zero
  apply Array.ext_getElem?
  intro i
  rw [Array.getElem?_setIfInBounds]
  split
  · subst i
    cases held : counters[top]? with
    | none => simp [Array.getElem?_eq_none_iff.mp held]
    | some value => grind
  · rfl

/-- What the loop does from the first position on: it visits a tour of the positions up to `top`,
the present ordering excepted, and looks at the position behind them. -/
def Tours (items : Array α) (top : ℕ) : Prop :=
  ∀ {order : Perm ℕ} {counters : Array ℕ} (counted : counters.size = items.size),
    Within items.size order → Fresh counters top →
      (Course.arranged order counted 1).trail =
        ((tour top).tail.map fun step => arrange items (order * step)) ++
          (Course.arranged (order * last top) counted (top + 1)).trail

/-- The rounds that are left at a position, by induction on their number. -/
theorem Tours.rounds (tours : Tours items top) (fits : top + 1 < items.size)
    (inside : Within items.size order) (counted : counters.size = items.size)
    (fresh : Fresh counters top) (made : counters.getD (top + 1) 0 = round) {left : ℕ}
    (whole : round + left = top + 1) :
    (Course.arranged (order * (base (last top) (top + 1) round * last top)) counted
        (top + 1)).trail =
      (List.range' (round + 1) left).flatMap (ordersOf items order top) ++
        (Course.arranged (order * last (top + 1))
          (Course.size_setIfInBounds counted (top + 1) 0) (top + 2)).trail := by
  induction left generalizing round counters with
  | zero =>
    obtain rfl : round = top + 1 := whole
    exact Course.trail_carry counted fits made
  | succ left ih =>
    have bound : round < top + 1 := by omega
    have next : Within items.size (order * base (last top) (top + 1) (round + 1)) :=
      inside.mul ((within_base (within_last top) bound).mono fits)
    have counted' := Course.size_setIfInBounds counted (top + 1) (round + 1)
    have raised : (counters.setIfInBounds (top + 1) (round + 1)).getD (top + 1) 0 = round + 1 := by
      rw [getD_setIfInBounds, if_pos ⟨rfl, counted ▸ fits⟩]
    have again := tours counted' next (fresh.set (round + 1))
    have others := ih counted' (fresh.set (round + 1)) raised (by omega)
    simp only [Array.setIfInBounds_setIfInBounds] at others
    rw [Course.trail_exchange counted inside fits bound made, again, mul_assoc order, others,
      List.range'_succ, List.flatMap_cons, ordersOf_eq_cons, List.cons_append, List.cons_append,
      List.append_assoc]

/-- The loop tours the positions up to every one. -/
theorem tours {top : ℕ} (le : top ≤ items.size - 1) : Tours items top := by
  induction top with
  | zero => exact fun _ _ _ => by simp [tour, last]
  | succ top ih =>
    intro order counters counted inside fresh
    have begins : Fresh counters top := fun i le => fresh i (by omega)
    have rounds := Tours.rounds (ih (by omega)) (by omega) inside counted begins
      (fresh (top + 1) le_rfl) (Nat.zero_add (top + 1))
    simp only [fresh.set_zero, base, one_mul] at rounds
    have later : (tour (top + 1)).tail = (tour top).tail ++
        (List.range' 1 (top + 1)).flatMap fun round =>
          (tour top).map (base (last top) (top + 1) round * ·) := by
      have begun : tour top ≠ [] := List.ne_nil_of_mem (mem_tour.mpr (Within.one _))
      rw [tour_succ, List.tail_append_of_ne_nil begun, List.range'_eq_map_range, List.flatMap_map]
      simp only [Nat.add_comm]
    rw [(ih (by omega)) counted inside begins, rounds, later, List.map_append, List.map_flatMap,
      List.append_assoc]
    simp only [List.map_map]
    rfl

/-- The orderings in which the items are visited. -/
def visited (items : Array α) : List (Array α) := (tour (items.size - 1)).map (arrange items)

theorem cons_trail_start (items : Array α) :
    items :: (Course.start items).trail = visited items := by
  have counted : (Array.replicate items.size 0).size = items.size := Array.size_replicate
  have fresh : Fresh (Array.replicate items.size 0) (items.size - 1) := by
    intro i _
    rw [Array.getD_eq_getD_getElem?, Array.getElem?_replicate]
    split <;> rfl
  have toured := tours le_rfl counted (Within.one _) fresh
  have finished : (Course.arranged (last (items.size - 1)) counted (items.size - 1 + 1)).trail = [] :=
    Course.trail_of_le (by rw [Course.size_arranged]; exact Nat.le_add_of_sub_le le_rfl)
  have started : Course.start items = Course.arranged 1 counted 1 := by
    rw [Course.arranged, Course.start, Course.mk.injEq]
    exact ⟨(arrange_one items).symm, rfl, rfl⟩
  rw [started, toured, one_mul, finished, List.append_nil, visited, tour_eq_cons, List.map_cons,
    arrange_one, List.tail_cons]
  simp only [one_mul]

variable {m : Type → Type} [Monad m] [LawfulMonad m]

/-- The search tries the visited orderings up to the first that is accepted. -/
theorem search_eq (accept : Array α → m Bool) (items : Array α) :
    search accept items = (visited items).findM? accept := by
  rw [search, ← cons_trail_start, List.findM?, Course.search_eq]
  refine bind_congr fun accepted => ?_
  cases accepted <;> rfl

/-- A search that only looks finds the first visited ordering that satisfies its predicate. -/
theorem find?_eq (accept : Array α → Bool) (items : Array α) :
    find? accept items = (visited items).find? accept := by
  rw [find?, search_eq, List.findM?_pure]
  rfl

end Trail

section Positions

variable {α : Type}

/-- A rearrangement of the positions below `count`, on its own. -/
def place {count : ℕ} {order : Perm ℕ} (inside : Within count order) : Perm (Fin count) where
  toFun i := ⟨order i, inside.lt i.isLt⟩
  invFun i := ⟨order⁻¹ i, inside.inv.lt i.isLt⟩
  left_inv i := by simp
  right_inv i := by simp

theorem place_injective {count : ℕ} {first second : Perm ℕ} (left : Within count first)
    (right : Within count second) (same : place left = place right) : first = second := by
  ext i
  by_cases below : i < count
  · exact congrArg (fun order : Perm (Fin count) => (order ⟨i, below⟩).val) same
  · rw [left i (Nat.le_of_not_lt below), right i (Nat.le_of_not_lt below)]

theorem exists_place {count : ℕ} (order : Perm (Fin count)) :
    ∃ (whole : Perm ℕ) (inside : Within count whole), place inside = order := by
  have inside : Within count (order.extendDomain Fin.equivSubtype) :=
    fun i beyond => Equiv.Perm.extendDomain_apply_not_subtype _ _ (Nat.not_lt.mpr beyond)
  refine ⟨_, inside, Equiv.ext fun i => Fin.ext ?_⟩
  exact Equiv.Perm.extendDomain_apply_image order Fin.equivSubtype i

theorem arrange_eq {items : Array α} {order : Perm ℕ} (inside : Within items.size order) :
    arrange items order = rearrange items (place inside) := by
  refine congrArg Array.ofFn (funext fun i => ?_)
  have moved := inside.lt i.isLt
  simp [place, Array.getD, moved]

theorem within_of_mem_tour {count : ℕ} {order : Perm ℕ} (member : order ∈ tour (count - 1)) :
    Within count order := by
  cases count with
  | zero =>
    rw [List.mem_singleton.mp member]
    exact Within.one 0
  | succ count => exact mem_tour.mp member

/-- The visited orderings are all rearrangements of the positions, each once. -/
theorem exists_orders (items : Array α) : ∃ orders : List (Perm (Fin items.size)),
    orders.Nodup ∧ (∀ order, order ∈ orders) ∧ orders.length = items.size.factorial ∧
      orders.head? = some 1 ∧ visited items = orders.map (rearrange items) := by
  refine ⟨(tour (items.size - 1)).pmap (fun _ => place) fun _ => within_of_mem_tour, ?_, ?_, ?_, ?_,
    ?_⟩
  · exact (nodup_tour _).pmap fun _ left _ right => place_injective left right
  · intro order
    obtain ⟨whole, inside, rfl⟩ := exists_place order
    refine List.mem_pmap.mpr ⟨whole, mem_tour.mpr (inside.mono (by omega)), rfl⟩
  · rw [List.length_pmap, length_tour]
    cases items.size <;> rfl
  · have first {orders : List (Perm ℕ)} (inside : ∀ order ∈ orders, Within items.size order)
        (start : orders.head? = some 1) :
        (orders.pmap (fun _ => place) inside).head? = some 1 := by
      cases orders with
      | nil => cases start
      | cons order rest =>
        obtain rfl := Option.some.inj start
        rfl
    exact first _ (head?_tour _)
  · rw [List.map_pmap, visited, ← List.pmap_eq_map fun _ => within_of_mem_tour]
    exact List.pmap_congr_left _ fun _ _ inside _ => arrange_eq inside

/-- The lists with the same members are the rearrangements. -/
theorem exists_rearrange_iff {items : Array α} {ordering : List α} :
    (∃ order, (rearrange items order).toList = ordering) ↔ ordering.Perm items.toList := by
  have whole : items.toList = List.ofFn fun i : Fin items.size => items[i] := by
    apply List.ext_getElem <;> simp
  constructor
  · rintro ⟨order, rfl⟩
    rw [rearrange, Array.toList_ofFn, whole]
    exact order.ofFn_comp_perm _
  · intro same
    rw [whole, List.ofFn_eq_map, ← List.mem_permutations', ← List.map_permutations'] at same
    obtain ⟨places, member, rfl⟩ := List.mem_map.mp same
    rw [List.mem_permutations'] at member
    have count : places.length = items.size := by simpa using member.length_eq
    have distinct : places.Nodup := member.nodup_iff.mpr (List.nodup_finRange _)
    have injective : Function.Injective fun i : Fin items.size => places[i] :=
      fun first second equal => Fin.ext ((distinct.getElem_inj_iff).mp equal)
    refine ⟨Equiv.ofBijective _ (Finite.injective_iff_bijective.mp injective), ?_⟩
    apply List.ext_getElem <;> simp [rearrange, count]

end Positions

section Predicates

variable {α : Type}

/-- Notes an ordering, and rejects it. -/
def note (ordering : Array α) : StateM (List (Array α)) Bool := do
  modify (· ++ [ordering])
  return false

theorem run_findM?_note (orderings seen : List (Array α)) :
    (orderings.findM? note).run seen = (none, seen ++ orderings) := by
  induction orderings generalizing seen with
  | nil =>
    rw [List.append_nil]
    rfl
  | cons ordering rest ih => simp [List.findM?, note, ih]

theorem find?_eq_none_iff (accept : Array α → Bool) (items : Array α) :
    find? accept items = none ↔ ∀ order, accept (rearrange items order) = false := by
  obtain ⟨orders, -, all, -, -, same⟩ := exists_orders items
  rw [find?_eq, same, List.find?_eq_none]
  simp [all]

theorem of_find?_eq_some {accept : Array α → Bool} {items found : Array α}
    (accepted : find? accept items = some found) :
    accept found = true ∧ ∃ order, rearrange items order = found := by
  obtain ⟨orders, -, -, -, -, same⟩ := exists_orders items
  rw [find?_eq, same] at accepted
  refine ⟨List.find?_some accepted, ?_⟩
  obtain ⟨order, -, shown⟩ := List.mem_map.mp (List.mem_of_find?_eq_some accepted)
  exact ⟨order, shown⟩

end Predicates

end AdventureMachine.Permutation

namespace AdventureMachine.Coin

open Permutation
open Equiv (Perm)

section Solve

variable {coins ordering : List Coin} {target : Int} {power : Precision.Power}

theorem solve_eq_none_iff (five : coins.length = 5) :
    solve coins target power = none ↔ ∀ ordering : List Coin, ordering.Perm coins →
      equation (ordering.map value) power ≠ .finite target := by
  rw [solve, if_pos five, Option.map_eq_none_iff, find?_eq_none_iff]
  constructor
  · intro none ordering same
    obtain ⟨order, rfl⟩ := exists_rearrange_iff.mpr same
    simpa using none order
  · intro none order
    simpa using none _ (exists_rearrange_iff.mp ⟨order, rfl⟩)

theorem of_solve_eq_some (solved : solve coins target power = some ordering) :
    ordering.Perm coins ∧ equation (ordering.map value) power = .finite target := by
  rw [solve] at solved
  split at solved
  · obtain ⟨found, accepted, rfl⟩ := Option.map_eq_some_iff.mp solved
    obtain ⟨holds, shown⟩ := of_find?_eq_some accepted
    obtain ⟨order, rfl⟩ := shown
    exact ⟨exists_rearrange_iff.mp ⟨order, rfl⟩, by simpa using holds⟩
  · cases solved

end Solve

/-- The exact value of five slots. -/
def slots? : List Int → Option Int
  | [a, b, c, d, e] => some (a + b * c ^ 2 + d ^ 3 - e)
  | _ => none

/-- The exact results on the way to the value of five slots. -/
def partials (a b c d e : Int) : List Int :=
  [c ^ 2, b * c ^ 2, a + b * c ^ 2, d ^ 3, a + b * c ^ 2 + d ^ 3, a + b * c ^ 2 + d ^ 3 - e]

theorem equation_exact {power : Precision.Power} (faithful : power.Faithful) {a b c d e : Int}
    (small : ∀ part ∈ partials a b c d e, part.natAbs ≤ Precision.exactBelow) :
    equation [a, b, c, d, e] power = .finite (a + b * c ^ 2 + d ^ 3 - e) := by
  have kept {part : Int} (member : part ∈ partials a b c d e) :
      Precision.Outcome.ofExact part = .finite part :=
    Precision.Outcome.ofExact_of_natAbs_le (small part member)
  have square : power c 2 = .finite (c ^ 2) := faithful c 2 (small _ (by simp [partials]))
  have cube : power d 3 = .finite (d ^ 3) := faithful d 3 (small _ (by simp [partials]))
  have product := kept (by simp [partials] : b * c ^ 2 ∈ partials a b c d e)
  have sum := kept (by simp [partials] : a + b * c ^ 2 ∈ partials a b c d e)
  have total := kept (by simp [partials] : a + b * c ^ 2 + d ^ 3 ∈ partials a b c d e)
  have difference := kept (by simp [partials] : a + b * c ^ 2 + d ^ 3 - e ∈ partials a b c d e)
  rw [equation, square, cube, Precision.Outcome.finite_mul, product, Precision.Outcome.finite_add,
    sum, Precision.Outcome.finite_add, total, Precision.Outcome.finite_sub, difference]

/-- The loop ends for all items. It visits every rearrangement of the positions once, the present
order first, and finds the first that satisfies a predicate. So coins are ordered whenever some order
meets the target, as the value of the slots is computed. That value is exact when every result on
the way is at most `2 ^ 53` in size and such powers come out exactly. -/
theorem visits_every_ordering :
    (∀ {α : Type} (items : Array α), ∃ orders : List (Perm (Fin items.size)),
      orders.Nodup ∧ (∀ order, order ∈ orders) ∧ orders.length = items.size.factorial ∧
      orders.head? = some 1 ∧
      (search note items).run [] = (none, orders.map (rearrange items)) ∧
      ∀ accept, find? accept items = (orders.map (rearrange items)).find? accept ∧
        (find? accept items = none ↔ ∀ order, accept (rearrange items order) = false)) ∧
    (∀ (power : Precision.Power) (coins : List Coin) (target : Int), coins.length = 5 →
      ((∃ ordering, solve coins target power = some ordering) ↔ ∃ ordering : List Coin,
        ordering.Perm coins ∧ equation (ordering.map value) power = .finite target) ∧
      ∀ ordering, solve coins target power = some ordering →
        ordering.Perm coins ∧ equation (ordering.map value) power = .finite target) ∧
    ∀ power : Precision.Power, power.Faithful →
      ∀ a b c d e : Int, (∀ part ∈ partials a b c d e, part.natAbs ≤ 2 ^ 53) →
        equation [a, b, c, d, e] power = .finite (a + b * c ^ 2 + d ^ 3 - e) := by
  refine ⟨fun items => ?_, fun power coins target five => ⟨⟨?_, ?_⟩, fun _ => of_solve_eq_some⟩,
    fun power faithful a b c d e => equation_exact faithful⟩
  · obtain ⟨orders, distinct, all, count, first, same⟩ := exists_orders items
    refine ⟨orders, distinct, all, count, first, ?_,
      fun accept => ⟨?_, find?_eq_none_iff accept items⟩⟩
    · rw [search_eq, run_findM?_note, same, List.nil_append]
    · rw [find?_eq, same]
  · rintro ⟨ordering, solved⟩
    exact ⟨ordering, of_solve_eq_some solved⟩
  · rintro ⟨ordering, same, holds⟩
    rw [← Option.isSome_iff_exists, ← Option.ne_none_iff_isSome, ne_eq, solve_eq_none_iff five]
    exact fun none => none ordering same holds

/-- The coins of the game: their order exists, and its value is exact. -/
theorem visits_every_ordering_found :
    Precision.Power.Faithful Precision.nearestPower ∧ found.length = 5 ∧
      (∃ ordering, solve found target = some ordering) ∧
      equation [9, 2, 5, 7, 3] = .finite (9 + 2 * 5 ^ 2 + 7 ^ 3 - 3) := by
  have faithful := Precision.nearestPower_faithful
  have exact := visits_every_ordering.2.2 _ faithful 9 2 5 7 3 (by decide)
  have solved := (visits_every_ordering.2.1 Precision.nearestPower found 399 rfl).1.mpr
    ⟨[⟨"blue coin", 9⟩, ⟨"red coin", 2⟩, ⟨"shiny coin", 5⟩, ⟨"concave coin", 7⟩,
      ⟨"corroded coin", 3⟩], by decide, exact⟩
  exact ⟨faithful, rfl, solved, exact⟩

/-- Large coins whose value is rounded to a target that no order of them meets. -/
def largeCoins : List Coin :=
  [⟨"large coin", 9007199254740991⟩, ⟨"red coin", 1⟩, ⟨"shiny coin", 1⟩, ⟨"concave coin", 1⟩,
    ⟨"blue coin", 1⟩]

theorem solve_largeCoins :
    solve largeCoins 9007199254740991 = some largeCoins ∧
      ∀ ordering : List Coin, ordering.Perm largeCoins →
        slots? (ordering.map value) ≠ some 9007199254740991 := by
  constructor
  · have accepted : equation (largeCoins.map value) = .finite 9007199254740991 := by
      decide +kernel
    have visited : find? (fun ordering => equation (ordering.toList.map value) ==
        .finite 9007199254740991) largeCoins.toArray = some largeCoins.toArray := by
      simp [find?, search, accepted]
    have five : largeCoins.length = 5 := rfl
    rw [solve, if_pos five, visited]
    rfl
  · intro ordering same
    have unmet : ∀ values ∈ (largeCoins.map value).permutations',
        slots? values ≠ some 9007199254740991 := by decide +kernel
    exact unmet _ (List.mem_permutations'.mpr (same.map value))

end AdventureMachine.Coin
