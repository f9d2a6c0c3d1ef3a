import AdventureMachine.Number.Precision
import AdventureMachine.Puzzle.Permutation

/-! Five coins go into the slots of an equation; the order that meets the target opens a door. -/
namespace AdventureMachine

/-- A coin with the value stamped on it. -/
structure Coin where
  name : String
  value : Int
deriving DecidableEq, Inhabited

namespace Coin

/-- The coins found in the game. -/
def found : List Coin :=
  [⟨"red coin", 2⟩, ⟨"corroded coin", 3⟩, ⟨"shiny coin", 5⟩, ⟨"concave coin", 7⟩, ⟨"blue coin", 9⟩]

/-- What the slots on the door have to add up to. -/
def target : Int := 399

/-- The value of the slots, `a + b * c ^ 2 + d ^ 3 - e`, with every operation kept to the available
precision and range and powers as `power` gives them. Fewer than five values give no number; values
behind the fifth do not count. -/
def equation (values : List Int) (power : Precision.Power := Precision.nearestPower) :
    Precision.Outcome :=
  match values with
  | a :: b :: c :: d :: e :: _ => .finite a + .finite b * power c 2 + power d 3 - .finite e
  | _ => .undefined

/-- Orders five coins so that the slots meet the target. -/
def solve (coins : List Coin) (target : Int)
    (power : Precision.Power := Precision.nearestPower) : Option (List Coin) :=
  if coins.length = 5 then
    (Permutation.find? (fun ordering =>
      equation (ordering.toList.map Coin.value) power == .finite target)
        coins.toArray).map Array.toList
  else none

end Coin

end AdventureMachine
