import BytePatch.Lattice.Graph
import BytePatch.Lattice.Slate
/-!
Comparers keep their storage from pair to pair. What they find is read off the storage by walking back
from the cell at the ends of both strings.
-/
namespace BytePatch

namespace Nearest

/-- The kind of the step that arrives at a cell, and the length of the path. -/
structure Mark where
  kind : Kind
  length : Nat
deriving DecidableEq

instance : Inhabited Mark := ⟨⟨.stop, 0⟩⟩

/-- Arrive over a neighbour by a step of a kind, if that is shorter. -/
def nearer (kind : Kind) (from? : Option (Nat × Mark)) (mark : Mark) : Mark :=
  match from? with
  | none => mark
  | some (_, before) =>
    let length := (before.length + 1) % UInt32.size
    if length < mark.length then ⟨kind, length⟩ else mark

def rule : Rule Mark where
  origin := ⟨.stop, 0⟩
  enter left above diagonal :=
    let mark := match left with
      | none => ⟨.stop, farthest⟩
      | some (_, before) => ⟨.delete, (before.length + 1) % UInt32.size⟩
    nearer .copy diagonal (nearer .insert above mark)

/-- Write down the steps from a position back to the origin. -/
def walk (slate : Slate Mark) (pos : Nat) (runs : Runs) : Except Fault Runs :=
  if _ : pos = 0 then .ok runs
  else
    let kind := slate.cells[pos]!.kind
    if _ : kind = .stop then .ok runs
    else match slate.record pos kind runs with
      | .error fault => .error fault
      | .ok runs => walk slate (slate.before pos kind) runs
termination_by pos
decreasing_by exact slate.before_lt ‹kind ≠ .stop› ‹pos ≠ 0›

end Nearest

namespace Priced

/-- The costs of arriving at a cell by each kind of step. -/
structure Costs where
  delete : Nat
  insert : Nat
  copy : Nat
deriving DecidableEq

instance : Inhabited Costs := ⟨⟨ceiling, ceiling, ceiling⟩⟩

def Costs.by (costs : Costs) : Kind → Nat
  | .delete => costs.delete
  | .insert => costs.insert
  | .copy => costs.copy
  | .stop => ceiling

/-- What the cheapest way to leave a position costs, and the kind of the step it arrived by. -/
def exit (prices : PriceTable) (next : Kind) (seen : Nat × Costs) : Nat × Kind :=
  if seen.1 = 0 then ((prices .stop next).toNat, .stop)
  else [Kind.delete, .insert, .copy].foldl (fun best kind =>
    let cost := min ceiling (seen.2.by kind + (prices kind next).toNat)
    if cost < best.1 then (cost, kind) else best) (ceiling, .stop)

def rule (prices : PriceTable) : Rule Costs where
  origin := ⟨ceiling, ceiling, ceiling⟩
  enter left above diagonal :=
    ⟨arrive .delete left, arrive .insert above, arrive .copy diagonal⟩
where
  arrive (next : Kind) : Option (Nat × Costs) → Nat
    | none => ceiling
    | some seen => (exit prices next seen).1

/-- The cheapest way to leave a position of a slate. -/
def exitAt (prices : PriceTable) (slate : Slate Costs) (next : Kind) (pos : Nat) : Nat × Kind :=
  exit prices next (pos, slate.cells[pos]!)

/-- Write down the steps back to the origin from a position that a step of a kind arrives at. -/
def walk (prices : PriceTable) (slate : Slate Costs) (pos : Nat) (kind : Kind) (runs : Runs) :
    Except Fault Runs :=
  if _ : kind = .stop then .ok runs
  else
    let prev := slate.before pos kind
    match slate.record pos kind runs with
    | .error fault => .error fault
    | .ok runs =>
      if _ : prev = 0 then .ok runs
      else walk prices slate prev (exitAt prices slate kind prev).2 runs
termination_by pos
decreasing_by exact slate.before_lt_of_pos ‹kind ≠ .stop› ‹prev ≠ 0›

end Priced

/-- Add an op at the end of a script that is kept last op first, into the last op if that is of its
kind. -/
def Script.push (ops : Script) (op : Op) : Script :=
  match ops with
  | [] => [op]
  | last :: ops =>
    match last.merge? op with
    | some both => both :: ops
    | none => op :: last :: ops

def Stretch.op : Stretch → Op
  | .keep bytes => .copy bytes.length
  | .delete bytes => .delete bytes
  | .insert bytes => .insert bytes

/-- What compares pairs of strings one after another, by each of the strategies. The last script that
was found by division is kept last op first. -/
inductive Comparer where
  | fewest (slate : Slate Nearest.Mark)
  | cheapest (prices : PriceTable) (slate : Slate Priced.Costs)
  | dividing (divider : Divider) (capacity : Nat) (script? : Option Script)

namespace Comparer

def new : Strategy → Nat → Comparer
  | .fewest, capacity => .fewest (.new capacity)
  | .cheapest prices, capacity => .cheapest prices (.new capacity)
  | .dividing divider, capacity => .dividing divider capacity none

def strategy : Comparer → Strategy
  | .fewest _ => .fewest
  | .cheapest prices _ => .cheapest prices
  | .dividing divider _ _ => .dividing divider

def capacity : Comparer → Nat
  | .fewest slate => slate.cells.size
  | .cheapest _ slate => slate.cells.size
  | .dividing _ capacity _ => capacity

def aligner (comparer : Comparer) : Aligner := ⟨comparer.strategy, comparer.capacity⟩

/-- Compare a pair that fits. -/
def fill (orig target : Bytes) : Comparer → Comparer
  | .fewest slate => .fewest (slate.compute Nearest.rule orig target)
  | .cheapest prices slate => .cheapest prices (slate.compute (Priced.rule prices) orig target)
  | .dividing divider capacity _ =>
    .dividing divider capacity
      (some (((divider.stretches orig target).map Stretch.op).foldl Script.push []))

def compute (comparer : Comparer) (orig target : Bytes) : Except Fault Unit × Comparer :=
  match comparer.aligner.checkCapacity orig target with
  | .error fault => (.error fault, comparer)
  | .ok () => (.ok (), comparer.fill orig target)

/-- The last script that was computed, with its last op first. -/
def scriptBack : Comparer → Except Fault Script
  | .fewest slate =>
    if slate.computed then Runs.finish <$> Nearest.walk slate slate.last .empty
    else .error (.illegalState .scriptBeforeCompute)
  | .cheapest prices slate =>
    if slate.computed then
      if slate.last = 0 then .ok Runs.empty.finish
      else
        Runs.finish <$> Priced.walk prices slate slate.last
          (Priced.exitAt prices slate .stop slate.last).2 .empty
    else .error (.illegalState .scriptBeforeCompute)
  | .dividing _ _ none => .error (.illegalState .scriptBeforeCompute)
  | .dividing _ _ (some ops) => .ok ops

def script (comparer : Comparer) : Except Fault Script := List.reverse <$> comparer.scriptBack

/-- What the last script costs, where steps have prices. -/
def cost? : Comparer → Option (Except Fault Nat)
  | .cheapest prices slate => some <|
    if slate.computed then .ok (Priced.exitAt prices slate .stop slate.last).1
    else .error (.illegalState .costBeforeCompute)
  | .fewest _ | .dividing _ _ _ => none

end Comparer

end BytePatch
