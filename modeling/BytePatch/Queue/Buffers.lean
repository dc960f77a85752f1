import BytePatch.Script
/-!
The two buffers of a queue: ops that are final and ops that may still change.
-/
namespace BytePatch

structure Buffers where
  ready : List Op
  pending : List Op
deriving DecidableEq

namespace Buffers

def empty : Buffers := ⟨[], []⟩

def isEmpty (buffers : Buffers) : Bool := buffers.ready.isEmpty && buffers.pending.isEmpty

/-- The first pending op becomes final, if there is one. -/
def shiftReady (buffers : Buffers) : Bool × Buffers :=
  match buffers.pending with
  | [] => (false, buffers)
  | op :: pending => (true, ⟨buffers.ready ++ [op], pending⟩)

/-- All pending ops become final. -/
def flush (buffers : Buffers) : Buffers := ⟨buffers.ready ++ buffers.pending, []⟩

def pushReady (op : Op) (buffers : Buffers) : Buffers :=
  { buffers with ready := buffers.ready ++ [op] }

def pushPending (op : Op) (buffers : Buffers) : Buffers :=
  { buffers with pending := buffers.pending ++ [op] }

def weight (buffers : Buffers) : Nat :=
  Script.weight buffers.ready + Script.weight buffers.pending

@[simp] theorem weight_mk (ready pending : List Op) :
    weight ⟨ready, pending⟩ = Script.weight ready + Script.weight pending := rfl

@[simp] theorem weight_shiftReady (buffers : Buffers) :
    buffers.shiftReady.2.weight = buffers.weight := by
  obtain ⟨ready, pending⟩ := buffers
  cases pending <;> simp [shiftReady]
  omega

@[simp] theorem weight_flush (buffers : Buffers) : buffers.flush.weight = buffers.weight := by
  simp [flush, weight]

end Buffers

end BytePatch
