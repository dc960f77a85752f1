import BytePatch.Queue.Buffers
import BytePatch.Queue.Feed
/-!
A whole script drained at once and then handed out, as often as it is asked for.
-/
namespace BytePatch

/-- The drained ops are those already handed out, the latest first, and those still to come. The
feed is drained until it has once run dry. -/
structure Pump where
  passed : List Op
  coming : List Op
  drained : Bool
deriving DecidableEq

namespace Pump

def new : Pump := ⟨[], [], false⟩

def ops (pump : Pump) : List Op := pump.passed.reverse ++ pump.coming

/-- Hand everything out again from the first op on. -/
def rewound (pump : Pump) : Pump := { pump with passed := [], coming := pump.ops }

def push (op : Op) (pump : Pump) : Pump := { pump with coming := pump.coming ++ [op] }

variable {σ : Type}

/-- What was drained before a failure is kept, and the next fill goes on from there. -/
def fill (feed : Feed σ) (pump : Pump) (s : σ) : Except Fault Unit × Pump × σ :=
  if pump.drained then (.ok (), pump, s)
  else
    match feed.drain s with
    | (.ok (), ops, s) => (.ok (), { pump with coming := pump.coming ++ ops, drained := true }, s)
    | (.error fault, ops, s) => (.error fault, { pump with coming := pump.coming ++ ops }, s)

def shift (feed : Feed σ) (pump : Pump) (buffers : Buffers) (s : σ) :
    Except Fault Unit × Pump × Buffers × σ :=
  match pump.fill feed s with
  | (.error fault, pump, s) => (.error fault, pump, buffers, s)
  | (.ok (), pump, s) =>
    match pump.coming with
    | [] => (.ok (), pump, buffers, s)
    | op :: coming =>
      (.ok (), { pump with passed := op :: pump.passed, coming }, buffers.pushReady op, s)

theorem rank_fill_le (feed : Feed σ) (pump : Pump) (s : σ) :
    Script.weight (pump.fill feed s).2.1.coming + feed.rank (pump.fill feed s).2.2 ≤
      Script.weight pump.coming + feed.rank s := by
  have h := feed.rank_drain_le s
  unfold fill
  split
  · exact Nat.le_refl _
  · split <;> rename_i heq <;> rw [heq] at h <;> simp at * <;> omega

theorem weight_shift_le (feed : Feed σ) (pump : Pump) (buffers : Buffers) (s : σ) :
    Script.weight (shift feed pump buffers s).2.1.coming +
        (shift feed pump buffers s).2.2.1.weight + feed.rank (shift feed pump buffers s).2.2.2 ≤
      Script.weight pump.coming + buffers.weight + feed.rank s := by
  have h := rank_fill_le feed pump s
  unfold shift
  split <;> rename_i heq <;> rw [heq] at h <;> simp only at h
  · dsimp only; omega
  · split <;> rename_i hc <;> rw [hc] at h
    · dsimp only; rw [hc]; omega
    · simp [Buffers.pushReady, Buffers.weight] at *
      omega

end Pump

end BytePatch
