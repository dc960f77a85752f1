import BytePatch.Lattice.Priced
import BytePatch.Lattice.Myers.Trail
/-!
The ways to compare two strings that can be chosen by name, and how each finds its path.
-/
namespace BytePatch

inductive Method where
  | edit
  | inertial
  | myers
deriving DecidableEq

namespace Method

def all : List Method := [.edit, .inertial, .myers]

/-- As in a configuration. -/
def name : Method → String
  | .edit => "edit"
  | .inertial => "inertial"
  | .myers => "myers"

/-- As in a description of a pipeline. -/
def title : Method → String
  | .edit => "Edit"
  | .inertial => "Inertial"
  | .myers => "Myers"

def ofName? (text : String) : Option Method := all.find? (·.name = text)

/-- The method with a name in any mix of capitals. No letter beyond ASCII has a small form that
occurs in a name, so only ASCII letters have to be made small. -/
def parse? (text : String) : Option Method := ofName? (String.ofList (text.toList.map Char.toLower))

end Method

/-- A way to divide any two strings into stretches from their starts to their ends, none of them
empty. -/
structure Divider where
  stretches : Bytes → Bytes → List Stretch
  joins : ∀ orig target, Stretch.Joins (stretches orig target) orig target
  filled : ∀ orig target, ∀ stretch ∈ stretches orig target, stretch.bytes ≠ []

namespace Divider

def myers : Divider := ⟨Myers.stretches, Myers.joins_stretches, Myers.filled_stretches⟩

/-- The path from the ends of both strings back to their starts. -/
def trail (divider : Divider) (orig target : Bytes) : Path :=
  ((divider.stretches orig target).flatMap Stretch.steps).reverse

theorem joins_trail (divider : Divider) (orig target : Bytes) :
    (divider.trail orig target).Joins orig.reverse target.reverse :=
  (divider.joins orig target).path.reverse

end Divider

/-- How a path is chosen: with the fewest steps, at the least price, or by division. -/
inductive Strategy where
  | fewest
  | cheapest (prices : PriceTable)
  | dividing (divider : Divider)

namespace Method

/-- How a method chooses paths, given what divides if that is the method. -/
def strategyWith (divider : Divider) : Method → Strategy
  | .edit => .fewest
  | .inertial => .cheapest .encoding
  | .myers => .dividing divider

def strategy (method : Method) : Strategy := method.strategyWith .myers

end Method

namespace Strategy

/-- The chosen path from the ends of both strings back to their starts. -/
def trail : Strategy → Bytes → Bytes → Path
  | .fewest => Nearest.trail
  | .cheapest prices => Priced.trail prices
  | .dividing divider => divider.trail

/-- What the chosen path costs: its price if steps have prices, else their number. -/
def cost (strategy : Strategy) (orig target : Bytes) : Nat :=
  match strategy with
  | .cheapest prices => (Priced.way prices orig target).cost
  | strategy => (strategy.trail orig target).length

def script (strategy : Strategy) (orig target : Bytes) : Script :=
  (strategy.trail orig target).scriptBack

theorem length_trail_le (strategy : Strategy) (orig target : Bytes) :
    (strategy.trail orig target).length ≤ orig.length + target.length := by
  have joined : ∀ {path : Path}, path.Joins orig.reverse target.reverse →
      path.length ≤ orig.length + target.length := fun {path} h => by
    have := path.length_le
    rwa [h.left_eq, h.right_eq, List.length_reverse, List.length_reverse] at this
  cases strategy with
  | fewest => exact Nearest.length_trail_le orig target
  | dividing divider => exact joined (divider.joins_trail orig target)
  | cheapest prices =>
    by_cases h : (Priced.way prices orig target).cost < Priced.ceiling
    · exact joined (Priced.joins_trail prices h)
    · rw [trail, Priced.trail_eq_nil prices (Nat.le_of_not_lt h)]
      simp

theorem weight_script_le (strategy : Strategy) (orig target : Bytes) :
    (strategy.script orig target).weight ≤ orig.length + target.length :=
  Nat.le_trans (Path.weight_scriptBack_le _) (strategy.length_trail_le orig target)

end Strategy

end BytePatch
