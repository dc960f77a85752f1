import BytePatch.Queue.Buffers
import BytePatch.Queue.Feed
/-!
Neighbours that can be said in one op become one op: those of one kind, and a delete beside an
insert of the same bytes, which together copy them. A few ops are held back for ops to come.
-/
namespace BytePatch

/-- One op in place of two, if there is one. -/
def Op.combine? (a b : Op) : Option Op :=
  match a, b with
  | .delete xs, .insert ys | .insert xs, .delete ys =>
    if xs = ys then some (.copy xs.length) else none
  | a, b => a.merge? b

theorem Op.weight_combine?_le {a b op : Op} (h : a.combine? b = some op) :
    op.weight ≤ a.weight + b.weight := by
  unfold combine? at h
  split at h
  · split at h <;> cases h; simp only [weight, run]; omega
  · split at h <;> cases h; simp only [weight, run]; omega
  · exact weight_merge?_le h

namespace Compact

/-- How many ops are held back. -/
def window : Nat := 4

/-- Combine held ops, newest first, from the newest end for as long as that goes. -/
def reduce : List Op → List Op
  | next :: prev :: older =>
    match prev.combine? next with
    | some op => reduce (op :: older)
    | none => next :: prev :: older
  | held => held
termination_by held => held.length

/-- More ops than the window holds are enough for the oldest to be final. -/
def release (held : List Op) : Next (List Op) (List Op) :=
  if window < held.length then .done held else .more held

def hold (held : List Op) (op : Op) : Next (List Op) (List Op) := release (reduce (op :: held))

variable {σ : Type}

def shift (feed : Feed σ) (buffers : Buffers) (s : σ) : Except Fault Unit × Buffers × σ :=
  match release buffers.pending.reverse with
  | .done _ => (.ok (), buffers.shiftReady.2, s)
  | .more held =>
    match feed.consume hold held s with
    | (.done held, s) => (.ok (), (Buffers.shiftReady ⟨buffers.ready, held.reverse⟩).2, s)
    | (.dry held, s) => (.ok (), Buffers.flush ⟨buffers.ready, held.reverse⟩, s)
    | (.failed fault held, s) => (.error fault, ⟨buffers.ready, held.reverse⟩, s)

private theorem weight_reduce_le (held : List Op) :
    Script.weight (reduce held) ≤ Script.weight held := by
  fun_induction reduce held with
  | case1 next prev older op h ih =>
    have := Op.weight_combine?_le h
    simp only [Script.weight_cons] at *
    omega
  | case2 => exact Nat.le_refl _
  | case3 => exact Nat.le_refl _

private theorem weight_release (held : List Op) :
    (release held).weight Script.weight Script.weight = Script.weight held := by
  unfold release; split <;> rfl

theorem weight_shift_le (feed : Feed σ) (buffers : Buffers) (s : σ) :
    (shift feed buffers s).2.1.weight + feed.rank (shift feed buffers s).2.2 ≤
      buffers.weight + feed.rank s := by
  have h := weight_release buffers.pending.reverse
  simp only [Script.weight_reverse] at h
  unfold shift
  split <;> rename_i heq <;> rw [heq] at h <;> simp only [Next.weight] at h
  · simp
  · next held =>
    have hc := feed.rank_consume_le hold Script.weight Script.weight
      (fun a op => by
        have := weight_reduce_le (op :: a)
        simp only [Script.weight_cons] at this
        unfold hold
        rw [weight_release]
        omega) held s
    split <;> rename_i heq <;> rw [heq] at hc <;> simp only [Outcome.weight] at hc <;>
      simp only [Buffers.weight_shiftReady, Buffers.weight_flush, Buffers.weight_mk,
        Script.weight_reverse] <;> simp only [Buffers.weight] <;> omega

end Compact

end BytePatch
