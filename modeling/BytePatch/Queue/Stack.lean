import BytePatch.Queue.Layer
/-!
Layers on top of each other above any feed that ops can be offered to.
-/
namespace BytePatch

/-- A feed that may take ops as well as give them. -/
structure Base (σ : Type) extends Feed σ where
  offer : Op → σ → Except Fault Unit × σ

/-- So many layers, the topmost first, above a state of the base. -/
def Stack (σ : Type) : Nat → Type
  | 0 => σ
  | depth + 1 => Layer × Stack σ depth

namespace Stack

variable {σ : Type} (base : Base σ)

def feed : (depth : Nat) → Feed (Stack σ depth)
  | 0 => base.toFeed
  | depth + 1 => Layer.feed (feed depth)

/-- Where an op goes that is offered to a layer: down to what is below it, except that a pump
that is full takes it itself and a closed pool refuses it. -/
def offer : (depth : Nat) → Op → Stack σ depth → Except Fault Unit × Stack σ depth
  | 0, op, s => base.offer op s
  | depth + 1, op, (layer, below) =>
    let passOn : Except Fault Unit × Stack σ (depth + 1) :=
      let (answer, below) := offer depth op below
      (answer, (layer, below))
    match layer.work with
    | .pump pump =>
      if pump.drained then (.ok (), ({ layer with work := .pump (pump.push op) }, below))
      else passOn
    | .pool pool =>
      if pool.isOpen then passOn else (.error (.illegalState .poolClosed), (layer, below))
    | _ => passOn

/-- Cancel every pool in the stack. -/
def cancel : (depth : Nat) → Stack σ depth → Stack σ depth
  | 0, s => s
  | depth + 1, (layer, below) =>
    match layer.work with
    | .pool pool =>
      ({ layer with work := .pool { pool with cancelled := true } }, cancel depth below)
    | _ => (layer, cancel depth below)

/-- Whether each pool in the stack was cancelled, the lowest first. -/
def cancelled : (depth : Nat) → Stack σ depth → List Bool
  | 0, _ => []
  | depth + 1, (layer, below) =>
    match layer.work with
    | .pool pool => cancelled depth below ++ [pool.cancelled]
    | _ => cancelled depth below

end Stack

end BytePatch
