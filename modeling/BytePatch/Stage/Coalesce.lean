import BytePatch.Queue.Buffers
import BytePatch.Queue.Feed
/-!
Neighbours of one kind become one op. The newest op is held back until one of another kind
follows it.
-/
namespace BytePatch.Coalesce

/-- Merge held ops, newest first, from the newest end. The first op that does not merge with the
one after it is final. -/
def settle : List Op → Next (List Op) (Op × List Op)
  | next :: prev :: older =>
    match prev.merge? next with
    | some both => settle (both :: older)
    | none => .done (prev, next :: older)
  | held => .more held
termination_by held => held.length

def hold (held : List Op) (op : Op) : Next (List Op) (Op × List Op) := settle (op :: held)

variable {σ : Type}

def shift (feed : Feed σ) (buffers : Buffers) (s : σ) : Except Fault Unit × Buffers × σ :=
  match settle buffers.pending.reverse with
  | .done (op, held) => (.ok (), ⟨buffers.ready ++ [op], held.reverse⟩, s)
  | .more held =>
    match feed.consume hold held s with
    | (.done (op, held), s) => (.ok (), ⟨buffers.ready ++ [op], held.reverse⟩, s)
    | (.dry held, s) => (.ok (), Buffers.flush ⟨buffers.ready, held.reverse⟩, s)
    | (.failed fault held, s) => (.error fault, ⟨buffers.ready, held.reverse⟩, s)

private theorem weight_settle_le (held : List Op) :
    (settle held).weight Script.weight (fun r => r.1.weight + Script.weight r.2) ≤
      Script.weight held := by
  fun_induction settle held with
  | case1 next prev older both h ih =>
    have := Op.weight_merge?_le h
    simp only [Script.weight_cons] at *
    omega
  | case2 next prev older h => simp only [Next.weight, Script.weight_cons]; omega
  | case3 held => simp [Next.weight]

theorem weight_shift_le (feed : Feed σ) (buffers : Buffers) (s : σ) :
    (shift feed buffers s).2.1.weight + feed.rank (shift feed buffers s).2.2 ≤
      buffers.weight + feed.rank s := by
  have h := weight_settle_le buffers.pending.reverse
  simp only [Script.weight_reverse] at h
  unfold shift
  split <;> rename_i heq <;> rw [heq] at h <;> simp only [Next.weight] at h
  · simp [Buffers.weight]; omega
  · next held =>
    have hc := feed.rank_consume_le hold Script.weight (fun r => r.1.weight + Script.weight r.2)
      (fun a op => by
        have := weight_settle_le (op :: a)
        simp only [Script.weight_cons] at this
        unfold hold
        omega) held s
    split <;> rename_i heq <;> rw [heq] at hc <;> simp only [Outcome.weight] at hc <;>
      simp [Buffers.weight, Buffers.flush] <;> omega

end BytePatch.Coalesce
