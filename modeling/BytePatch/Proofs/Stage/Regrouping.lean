import BytePatch.Proofs.Queue.Recovery
import BytePatch.Proofs.Script.Regrouping
import BytePatch.Proofs.Stage.Regions

/-! The layer that merges neighbours gives the grouped script, and the one that gathers regions
gives the regrouped one, whether or not the ops were cut into pieces before. -/
namespace BytePatch

variable {σ : Type} {below : Feed σ} {pending ops : List Op} {s : σ} {faults : List Fault}

namespace Coalesce

private def coming (pending ops : List Op) : Script := Script.grouped (pending ++ ops)

/-- No more than one op is held back, and it is the first of what is still to come. -/
private def Heads (target : Script) (held ops : List Op) : Prop :=
  held.length ≤ 1 ∧ coming held.reverse ops = target

private theorem settle_of_length_le {held : List Op} (h : held.length ≤ 1) :
    settle held = .more held := by
  unfold settle
  rcases held with _ | ⟨op, _ | ⟨next, older⟩⟩
  · rfl
  · rfl
  · exact absurd h (by simp)

private theorem hold_heads {target : Script} {held : List Op} {op : Op} {ops : List Op}
    (h : Heads target held (op :: ops)) : (hold held op).Holds (fun held' => Heads target held' ops)
      (fun given => ∃ target', Heads target' given.2 ops ∧ given.1 :: target' = target) := by
  obtain ⟨hlen, rfl⟩ := h
  rcases held with _ | ⟨prev, _ | ⟨next, older⟩⟩
  · rw [hold, settle_of_length_le (by simp)]
    exact ⟨Nat.le_refl 1, rfl⟩
  · unfold hold settle
    cases hm : prev.merge? op with
    | none =>
      have hkinds := Op.merge?_eq_none_iff.1 hm
      exact ⟨_, ⟨Nat.le_refl 1, rfl⟩, (Script.grouped_cons_cons hkinds ops).symm⟩
    | some both =>
      dsimp only
      rw [settle_of_length_le (by simp)]
      exact ⟨Nat.le_refl 1, (Script.grouped_merged hm ops).symm⟩
  · exact absurd hlen (by simp)

private theorem advances (h : below.Recovers s (Answer.each ops) faults) (hp : pending.length ≤ 1) :
    Layer.Advances below (·.length ≤ 1) coming (coming pending ops) faults
      (shift below ⟨[], pending⟩ s) := by
  have hlen : pending.reverse.length ≤ 1 := by rwa [List.length_reverse]
  have hheads : Heads (coming pending ops) pending.reverse ops :=
    ⟨hlen, by rw [List.reverse_reverse]⟩
  unfold shift
  rw [settle_of_length_le hlen]
  have key := h.consume hold (Heads (coming pending ops))
    (fun given rest => ∃ target', Heads target' given.2 rest ∧
      given.1 :: target' = coming pending ops)
    (fun _ _ _ => hold_heads) hheads
  dsimp only
  generalize below.consume hold pending.reverse s = result at key
  generalize coming pending ops = target at key
  obtain ⟨given | held | ⟨fault, held⟩, s'⟩ := result
  · obtain ⟨rest, hrest, target', ⟨hlen', rfl⟩, rfl⟩ := key
    exact ⟨by simpa using hlen', rest, hrest, rfl, nofun⟩
  · obtain ⟨rfl, hrest, hlen', rfl⟩ := key
    have hone : coming held.reverse [] = held.reverse := by
      rcases held with _ | ⟨op, _ | ⟨next, older⟩⟩
      · rfl
      · rfl
      · exact absurd hlen' (by simp)
    rw [hone]
    exact ⟨Nat.zero_le 1, [], hrest, (List.append_nil _).symm, fun _ => ⟨rfl, rfl⟩⟩
  · obtain ⟨rest, later, hfaults, hrest, hlen', rfl⟩ := key
    exact ⟨rfl, by simpa using hlen', rest, later, hfaults, hrest, rfl⟩

/-- Failures or not, what comes out is the grouped script. -/
theorem recovers (h : below.Recovers s (Answer.each ops) faults) :
    (Layer.feed below).Recovers (.new .coalesce, s) (Answer.each (Script.grouped ops)) faults :=
  Layer.recovers_of_advances (fun _ _ => rfl) advances (Nat.zero_le 1) h

end Coalesce

namespace Unchunk

/-- The books of a layer that gathers regions: what is ready, and then what the rest is gathered
into. -/
def account {Fails : Fault → Prop} (L : below.Ledger .equality Fails) :
    Layer.Account below .equality Fails where
  Sound work _ s := work = .unchunk ∧ L.Sound s
  rest _ pending s := Script.regrouped (pending ++ L.content s)
  refill {work pending s} h _ := by
    obtain ⟨rfl, hs⟩ := h
    have key := takes L pending hs trivial
    simp only [Layer.shift]
    generalize shift below ⟨[], pending⟩ s = result at key
    obtain ⟨fault | _, ⟨ready, pending'⟩, s'⟩ := result
    · exact key
    obtain ⟨hs', ⟨hempty, hc, hall⟩ | ⟨first, region, rfl, hsame, hnext, hall⟩⟩ := key
    · cases hempty
      have hall : pending ++ L.content s = [] := hall
      have hnil : Script.regrouped ([] ++ L.content s') = [] := by rw [hc]; rfl
      refine ⟨⟨rfl, hs'⟩, ?_, fun _ => hnil⟩
      rw [hall]
      exact hnil.symm
    · have hall : pending ++ L.content s = first :: region ++ (pending' ++ L.content s') := hall
      refine ⟨⟨rfl, hs'⟩, ?_, fun hn => absurd hn (regroup_ne_nil first region)⟩
      rw [hall]
      exact Script.regrouped_cons hsame hnext

end Unchunk

namespace Queue

theorem Delivers.under_coalesce {queue : Queue} {ops : Script} (h : queue.Delivers ops) :
    (queue.under .coalesce).Delivers ops.grouped :=
  (Coalesce.recovers (Feed.Delivers.recovers h)).delivers

theorem Carries.under_unchunk {queue : Queue} {ops : Script} {Fails : Fault → Prop}
    (h : queue.Carries .equality Fails ops) :
    (queue.under .unchunk).Carries .equality Fails ops.regrouped := by
  obtain ⟨L, hs, rfl⟩ := h
  exact ⟨(Unchunk.account L).ledger, Layer.Account.sound_new ⟨rfl, hs⟩ trivial⟩

theorem Delivers.under_unchunk {queue : Queue} {ops : Script} (h : queue.Delivers ops) :
    (queue.under .unchunk).Delivers ops.regrouped := h.carries.under_unchunk.delivers

theorem Delivers.under_chunk {queue : Queue} {ops : Script} (h : queue.Delivers ops) (size : Nat) :
    (queue.under (.chunk size)).Delivers (Chunk.cut size ops) := (h.carries.under_chunk size).delivers

variable {source : Queue}

/-- Ops that were cut into pieces are gathered into what they are gathered into whole. Where no
stretch without copies has two deletes or two inserts, merging neighbours comes to the same. -/
theorem drain_unchunk_chunk {ops : Script} (hsource : source.Delivers ops) (size : Nat) :
    ∃ out, (∃ after, ((source.under (.chunk size)).under .unchunk).drain = (.ok (), out, after)) ∧
      (∃ after, (source.under .unchunk).drain = (.ok (), out, after)) ∧
      ((∀ stretch ∈ ops.regions, (∀ op ∈ stretch, op.kind ≠ .copy) →
          stretch.countP (·.kind = .delete) ≤ 1 ∧ stretch.countP (·.kind = .insert) ≤ 1) →
        ∃ after, (source.under .coalesce).drain = (.ok (), out, after)) := by
  have hcut := (hsource.under_chunk size).under_unchunk
  rw [Script.regrouped_cut] at hcut
  refine ⟨ops.regrouped, hcut.drain, hsource.under_unchunk.drain, fun hsingle => ?_⟩
  rw [Script.regrouped_eq_grouped hsingle]
  exact hsource.under_coalesce.drain

/-- An insert that is longer than the delete beside it, both in more than one piece. -/
def lopsided : Script :=
  [.copy 1, .copy 2, .insert [1, 2, 3, 4, 5], .skip 3, .copy 4, .delete [6, 7]]

theorem drain_unchunk_chunk_lopsided : ∃ out,
    (∃ after, (((ofSource (.ofList lopsided)).under (.chunk 2)).under .unchunk).drain =
      (.ok (), out, after)) ∧
    (∃ after, ((ofSource (.ofList lopsided)).under .unchunk).drain = (.ok (), out, after)) ∧
    ∃ after, ((ofSource (.ofList lopsided)).under .coalesce).drain = (.ok (), out, after) := by
  obtain ⟨out, hcut, hwhole, hmerged⟩ := drain_unchunk_chunk (delivers_list lopsided) 2
  refine ⟨out, hcut, hwhole, hmerged fun stretch hstretch _ => ?_⟩
  have hregions : lopsided.regions = [[.copy 1, .copy 2], [.insert [1, 2, 3, 4, 5], .skip 3],
      [.copy 4], [.delete [6, 7]]] := by decide
  rw [hregions] at hstretch
  revert stretch
  decide

end Queue

end BytePatch
