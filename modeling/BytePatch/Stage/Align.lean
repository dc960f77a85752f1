import BytePatch.Lattice.Graph
import BytePatch.Queue.Buffers
import BytePatch.Queue.Feed
/-!
Each delete beside an insert is replaced by the script that an aligner makes of the pair.
-/
namespace BytePatch.Align

variable {σ : Type}

/-- A pair the aligner refuses stays where it is, so it is refused again. -/
def shift (aligner : Aligner) (feed : Feed σ) (buffers : Buffers) (s : σ) :
    Except Fault Unit × Buffers × σ :=
  match feed.require 2 buffers.pending s with
  | (.error fault, pending, s) => (.error fault, ⟨buffers.ready, pending⟩, s)
  | (.ok true, a :: b :: pending, s) =>
    match a.pair? b with
    | none => (.ok (), ⟨buffers.ready ++ [a], b :: pending⟩, s)
    | some (orig, target) =>
      match aligner.align orig target with
      | .error fault => (.error fault, ⟨buffers.ready, a :: b :: pending⟩, s)
      | .ok script => (.ok (), ⟨buffers.ready ++ script, pending⟩, s)
  | (.ok _, pending, s) => (.ok (), Buffers.flush ⟨buffers.ready, pending⟩, s)

theorem weight_shift_le (aligner : Aligner) (feed : Feed σ) (buffers : Buffers) (s : σ) :
    (shift aligner feed buffers s).2.1.weight + feed.rank (shift aligner feed buffers s).2.2 ≤
      buffers.weight + feed.rank s := by
  have h := feed.rank_require_le 2 buffers.pending s
  unfold shift
  split <;> rename_i heq <;> rw [heq] at h <;> simp only [Script.weight_cons] at h
  · simp only [Buffers.weight]; omega
  · split
    · simp only [Buffers.weight, Script.weight_append, Script.weight_cons, Script.weight_nil]
      omega
    · next hp =>
      have hw := Op.weight_of_pair? hp
      split
      · simp only [Buffers.weight, Script.weight_cons]; omega
      · next ha =>
        have := Aligner.weight_align_le ha
        simp only [Buffers.weight, Script.weight_append]
        omega
  · simp only [Buffers.weight_flush, Buffers.weight_mk]
    simp only [Buffers.weight]
    omega

end BytePatch.Align
