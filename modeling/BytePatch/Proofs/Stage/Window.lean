import BytePatch.Proofs.Queue.Recovery
import BytePatch.Proofs.Script.Compaction

/-! The layer that combines neighbours gives what a stack without bounds comes to: an op is given
away once the ops held back shield it. What comes out is reduced as far as can be. -/
namespace BytePatch

namespace Compact

/-- What a stack comes to that starts out with the ops held back. -/
private def coming (pending ops : List Op) : Script := (ops.foldl push pending.reverse).reverse

private theorem coming_of_window_le {op : Op} {rest : List Op} (hw : window ≤ rest.length)
    (h : Script.Reduced (op :: rest)) (ops : List Op) :
    coming (op :: rest) ops = op :: coming rest ops := by
  have hsettled : Settled (rest.reverse ++ [op]) := by
    rw [← List.reverse_cons]
    exact Script.settled_reverse_iff.2 h
  have hshields : Shields rest.reverse := .inl (by
    rw [List.length_reverse]
    exact Nat.le_trans (by decide) hw)
  rw [coming, List.reverse_cons, foldl_push_append ops hsettled hshields, List.reverse_append]
  rfl

variable {σ : Type} {below : Feed σ} {s : σ} {faults : List Fault}

private theorem advances_shiftReady {held ops : List Op} (hw : window < held.length)
    (hsettled : Settled held) (h : below.Recovers s (Answer.each ops) faults) :
    Layer.Advances below Script.Reduced coming (ops.foldl push held).reverse faults
      (.ok (), (Buffers.shiftReady ⟨[], held.reverse⟩).2, s) := by
  have hcoming : (ops.foldl push held).reverse = coming held.reverse ops := by
    rw [coming, List.reverse_reverse]
  have hreduced : Script.Reduced held.reverse := by
    rw [← Script.settled_reverse_iff, List.reverse_reverse]
    exact hsettled
  rw [hcoming]
  rw [← List.length_reverse] at hw
  generalize held.reverse = pending at hw hreduced
  cases pending with
  | nil => cases hw
  | cons op rest =>
    have hrest := coming_of_window_le (Nat.le_of_lt_succ hw) hreduced ops
    exact ⟨hreduced.tail, ops, h, hrest, fun hn => absurd hn (List.cons_ne_nil op [])⟩

private theorem hold_pushes {target : List Op} {held : List Op} {op : Op} {ops : List Op}
    (h : Settled held ∧ (op :: ops).foldl push held = target) :
    (hold held op).Holds (fun held' => Settled held' ∧ ops.foldl push held' = target)
      (fun held' => window < held'.length ∧ Settled held' ∧ ops.foldl push held' = target) := by
  have hpush : Settled (push held op) ∧ ops.foldl push (push held op) = target :=
    ⟨settled_push h.1 op, h.2⟩
  change (release (push held op)).Holds _ _
  unfold release
  by_cases hw : window < (push held op).length
  · rw [if_pos hw]
    exact ⟨hw, hpush⟩
  · rw [if_neg hw]
    exact hpush

private theorem advances {pending ops : List Op} (h : below.Recovers s (Answer.each ops) faults)
    (hp : Script.Reduced pending) :
    Layer.Advances below Script.Reduced coming (coming pending ops) faults
      (shift below ⟨[], pending⟩ s) := by
  have hsettled : Settled pending.reverse := Script.settled_reverse_iff.2 hp
  unfold shift release
  by_cases hw : window < pending.reverse.length
  · rw [if_pos hw]
    have key := advances_shiftReady hw hsettled h
    rwa [List.reverse_reverse] at key
  rw [if_neg hw]
  have key := h.consume hold
    (fun held ops' => Settled held ∧ ops'.foldl push held = ops.foldl push pending.reverse)
    (fun held ops' => window < held.length ∧ Settled held ∧
      ops'.foldl push held = ops.foldl push pending.reverse)
    (fun _ _ _ => hold_pushes) ⟨hsettled, rfl⟩
  dsimp only
  rw [coming]
  generalize below.consume hold pending.reverse s = result at key
  obtain ⟨held | held | ⟨fault, held⟩, s'⟩ := result
  · obtain ⟨rest, hrest, hw', hs', heq⟩ := key
    rw [← heq]
    exact advances_shiftReady hw' hs' hrest
  · obtain ⟨rfl, hrest, -, heq⟩ := key
    rw [← heq]
    exact ⟨.nil, [], hrest, (List.append_nil _).symm, fun _ => ⟨rfl, rfl⟩⟩
  · obtain ⟨rest, later, hfaults, hrest, hs', heq⟩ := key
    refine ⟨rfl, ?_, rest, later, hfaults, hrest, ?_⟩
    · rw [← Script.settled_reverse_iff, List.reverse_reverse]
      exact hs'
    · rw [← heq, coming, List.reverse_reverse]

/-- Failures or not, what comes out is what a stack without bounds comes to. -/
theorem recovers {ops : Script} (h : below.Recovers s (Answer.each ops) faults) :
    (Layer.feed below).Recovers (.new .compact, s) (Answer.each ops.compacted) faults :=
  Layer.recovers_of_advances (fun _ _ => rfl) advances .nil h

end Compact

namespace Queue

theorem Delivers.under_compact {queue : Queue} {ops : Script} (h : queue.Delivers ops) :
    (queue.under .compact).Delivers ops.compacted :=
  (Compact.recovers (Feed.Delivers.recovers h)).delivers

variable {source : Queue}

/-- Holding back a few ops comes to the same as holding back all of them. -/
theorem drain_compact_eq {ops : Script} (hsource : source.Delivers ops) :
    ∃ after, (source.under .compact).drain = (.ok (), ops.compacted, after) :=
  hsource.under_compact.drain

/-- The last ops cancel once the oldest has been given away, and what they leave goes into the copy
before them. -/
def cascade : Script :=
  [.insert [1], .copy 2, .delete [3], .insert [4], .copy 1, .delete [5, 6], .insert [5],
    .insert [6], .copy 3]

theorem drain_compact_eq_cascade : ∃ after,
    ((ofSource (.ofList cascade)).under .compact).drain =
      (.ok (), [.insert [1], .copy 2, .delete [3], .insert [4], .copy 6], after) := by
  obtain ⟨after, h⟩ := drain_compact_eq (delivers_list cascade)
  refine ⟨after, h.trans ?_⟩
  simp [cascade, Script.compacted, Compact.push, Compact.reduce, Op.combine?, Op.merge?]

/-- No two neighbours that come out combine: they are of different kinds and do not carry the same
bytes. So they come out as they are when they go through once more, from whatever source. -/
theorem drain_compact_reduced {ops : Script} (hsource : source.Delivers ops) :
    ∃ out after, (source.under .compact).drain = (.ok (), out, after) ∧
      out.IsChain (fun a b => a.combine? b = none ∧ a.kind ≠ b.kind ∧
        (a.payload? = b.payload? → a.payload? = none)) ∧
      ∀ again : Queue, again.Delivers out →
        ∃ after', (again.under .compact).drain = (.ok (), out, after') := by
  obtain ⟨after, hdrain⟩ := hsource.under_compact.drain
  have hreduced := Script.reduced_compacted ops
  refine ⟨ops.compacted, after, hdrain, ?_, fun again hagain => ?_⟩
  · exact hreduced.imp fun a b h => ⟨h, Op.combine?_eq_none_iff.1 h⟩
  · have hout := hagain.under_compact.drain
    rwa [hreduced.compacted_eq] at hout

theorem drain_compact_reduced_cascade : ∃ out after,
    ((ofSource (.ofList cascade)).under .compact).drain = (.ok (), out, after) ∧
      out.IsChain (fun a b => a.combine? b = none ∧ a.kind ≠ b.kind ∧
        (a.payload? = b.payload? → a.payload? = none)) ∧
      ∃ after', ((ofSource (.ofList out)).under .compact).drain = (.ok (), out, after') := by
  obtain ⟨out, after, hdrain, hreduced, hagain⟩ := drain_compact_reduced (delivers_list cascade)
  exact ⟨out, after, hdrain, hreduced, hagain _ (delivers_list out)⟩

end Queue

end BytePatch
