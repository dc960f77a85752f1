import BytePatch.Queue.Buffers
import BytePatch.Queue.Feed
/-!
Regions gathered into as few ops as they need: neighbouring copies into one copy, and everything
between two copies into one delete and one insert, the kind that came first in front.
-/
namespace BytePatch.Unchunk

/-- Copies form regions of their own, and so do deletes and inserts together. -/
def sameRegion (a b : Op) : Bool := (a.kind = .copy) = (b.kind = .copy)

/-- A region as one op of the kind that leads it and then one of the other kind. -/
def regroup (lead : Kind) (region : Script) : Script :=
  Script.grouped (region.filter (·.kind = lead)) ++ Script.grouped (region.filter (·.kind ≠ lead))

/-- Take ops, the latest first, up to the first one of another region. -/
def gather (first : Op) (taken : List Op) (op : Op) : Next (List Op) (List Op × Op) :=
  if sameRegion first op then .more (op :: taken) else .done (taken, op)

variable {σ : Type}

/-- What has been taken of a region is lost if the search for its end fails. -/
def shift (feed : Feed σ) (buffers : Buffers) (s : σ) : Except Fault Unit × Buffers × σ :=
  match feed.require 1 buffers.pending s with
  | (.error fault, pending, s) => (.error fault, ⟨buffers.ready, pending⟩, s)
  | (.ok _, [], s) => (.ok (), ⟨buffers.ready, []⟩, s)
  | (.ok _, first :: pending, s) =>
    let region := first :: pending.takeWhile (sameRegion first)
    match pending.dropWhile (sameRegion first) with
    | op :: pending => (.ok (), ⟨buffers.ready ++ regroup first.kind region, op :: pending⟩, s)
    | [] =>
      match feed.consume (gather first) region.reverse s with
      | (.done (taken, op), s) =>
        (.ok (), ⟨buffers.ready ++ regroup first.kind taken.reverse, [op]⟩, s)
      | (.dry taken, s) => (.ok (), ⟨buffers.ready ++ regroup first.kind taken.reverse, []⟩, s)
      | (.failed fault _, s) => (.error fault, ⟨buffers.ready, []⟩, s)

theorem weight_filter_add (p : Op → Bool) (ops : List Op) :
    Script.weight (ops.filter p) + Script.weight (ops.filter (!p ·)) = Script.weight ops := by
  induction ops with
  | nil => rfl
  | cons op ops ih => cases hp : p op <;> simp [hp] <;> omega

theorem weight_regroup_le (lead : Kind) (region : Script) :
    Script.weight (regroup lead region) ≤ Script.weight region := by
  have h := weight_filter_add (·.kind = lead) region
  have h1 := Script.weight_grouped_le (region.filter (·.kind = lead))
  have h2 := Script.weight_grouped_le (region.filter (·.kind ≠ lead))
  simp only [regroup, Script.weight_append, ne_eq, decide_not] at *
  omega

theorem weight_shift_le (feed : Feed σ) (buffers : Buffers) (s : σ) :
    (shift feed buffers s).2.1.weight + feed.rank (shift feed buffers s).2.2 ≤
      buffers.weight + feed.rank s := by
  have h1 := feed.rank_require_le 1 buffers.pending s
  unfold shift
  split <;> rename_i heq <;> rw [heq] at h1 <;> simp only at h1
  · simp [Buffers.weight]; omega
  · simp [Buffers.weight] at *; omega
  · next first pending s' =>
    have hs := congrArg Script.weight (pending.takeWhile_append_dropWhile (p := sameRegion first))
    simp only [Script.weight_append] at hs
    simp only [Script.weight_cons] at h1
    dsimp only
    split
    · next op rest hd =>
      have hr := weight_regroup_le first.kind (first :: pending.takeWhile (sameRegion first))
      rw [hd] at hs
      simp only [Buffers.weight, Script.weight_append, Script.weight_cons] at *
      omega
    · next hd =>
      rw [hd] at hs
      have hc := feed.rank_consume_le (gather first) Script.weight
        (fun r => Script.weight r.1 + r.2.weight)
        (fun a op => by unfold gather; split <;> simp [Next.weight]; omega)
        (first :: pending.takeWhile (sameRegion first)).reverse s'
      simp only [Script.weight_reverse, Script.weight_cons, Script.weight_nil] at hc hs
      split <;> rename_i heq2 <;> rw [heq2] at hc <;> simp only [Outcome.weight] at hc
      · next taken op _ =>
        have hr := weight_regroup_le first.kind taken.reverse
        simp only [Script.weight_reverse] at hr
        simp only [Buffers.weight, Script.weight_append, Script.weight_cons, Script.weight_nil]
        omega
      · next taken _ =>
        have hr := weight_regroup_le first.kind taken.reverse
        simp only [Script.weight_reverse] at hr
        simp only [Buffers.weight, Script.weight_append, Script.weight_nil]
        omega
      · simp only [Buffers.weight, Script.weight_nil]
        omega

end BytePatch.Unchunk
