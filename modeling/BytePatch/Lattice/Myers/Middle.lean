import BytePatch.Kind
/-!
Where a shortest edit of two strings crosses its own middle. Two searches advance in turn, one
from the starts and one from the ends, each as far as it gets on every diagonal with a given
number of edits, until they meet.
-/
namespace BytePatch.Myers

/-- The furthest place on each diagonal, as an offset into the left string. -/
structure Reach where
  bound : Nat
  places : Array Nat

namespace Reach

/-- Nothing has been reached on the diagonals from `-bound` to `bound`. -/
def start (bound : Nat) : Reach := ⟨bound, Array.replicate (2 * bound + 1) 0⟩

def on (reach : Reach) (diagonal : Int) : Nat :=
  reach.places.getD (diagonal + reach.bound).toNat 0

def put (reach : Reach) (diagonal : Int) (place : Nat) : Reach :=
  { reach with places := reach.places.setIfInBounds (diagonal + reach.bound).toNat place }

/-- The place on a diagonal that one more edit leads to, from the neighbour that is further on. -/
def stepOnto (reach : Reach) (edits : Nat) (diagonal : Int) : Nat :=
  if diagonal = -edits ∨
      (diagonal ≠ edits ∧ reach.on (diagonal - 1) < reach.on (diagonal + 1)) then
    reach.on (diagonal + 1)
  else reach.on (diagonal - 1) + 1

end Reach

/-- How many bytes agree from place `x` of the one string and place `y` of the other on. -/
def agreement (xs ys : Array UInt8) (x y : Nat) : Nat :=
  go (xs.size - x) x y
where
  go : Nat → Nat → Nat → Nat
    | 0, _, _ => 0
    | more + 1, x, y =>
      match xs[x]?, ys[y]? with
      | some a, some b => if a = b then go more (x + 1) (y + 1) + 1 else 0
      | _, _ => 0

/-- A diagonal on which the searches meet: where its run of equal bytes begins and ends. -/
structure Meeting where
  first : Nat × Int
  last : Nat × Int

/-- One search goes on by one edit on each of the diagonals, up to the one on which it meets the
other search. -/
def advance (xs ys : Array UInt8) (edits : Nat) (meets : Int → Nat → Bool) :
    List Int → Reach → Option Meeting × Reach
  | [], reach => (none, reach)
  | diagonal :: diagonals, reach =>
    let x := reach.stepOnto edits diagonal
    let y : Int := x - diagonal
    let run := if 0 ≤ y then agreement xs ys x y.toNat else 0
    let reach := reach.put diagonal (x + run)
    if meets diagonal (x + run) then (some ⟨(x, y), (x + run, y + run)⟩, reach)
    else advance xs ys edits meets diagonals reach

/-- The diagonals that a number of edits can reach, from the lowest on. -/
def diagonals (edits : Nat) : List Int :=
  (List.range (edits + 1)).map fun (i : Nat) => (edits : Int) - 2 * i

/-- A point on a shortest path of two strings that has half of its edits on either side. -/
def middle? (xs ys : Array UInt8) : Option (Nat × Nat) :=
  let bound := (xs.size + ys.size + 1) / 2 + 1
  go bound 0 (Reach.start bound) (Reach.start bound)
where
  go : Nat → Nat → Reach → Reach → Option (Nat × Nat)
    | 0, _, _, _ => none
    | more + 1, edits, forward, backward =>
      let shift : Int := xs.size - ys.size
      let odd := shift % 2 ≠ 0
      match advance xs ys edits (fun diagonal x => odd && (diagonal - shift).natAbs + 1 ≤ edits &&
          xs.size ≤ x + backward.on (shift - diagonal)) (diagonals edits) forward with
      | (some meeting, _) => some (meeting.first.1, meeting.first.2.toNat)
      | (none, forward) =>
        match advance xs.reverse ys.reverse edits (fun diagonal x => !odd &&
            (diagonal - shift).natAbs ≤ edits && xs.size ≤ x + forward.on (shift - diagonal))
            (diagonals edits) backward with
        | (some meeting, _) =>
          some (xs.size - meeting.last.1, ((ys.size : Int) - meeting.last.2).toNat)
        | (none, backward) => go more (edits + 1) forward backward

end BytePatch.Myers
