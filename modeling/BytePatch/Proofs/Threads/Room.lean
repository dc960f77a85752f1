import Mathlib.Data.List.GetD
import BytePatch.Proofs.Script.Slices
import BytePatch.Proofs.Stage.Regrouping
import BytePatch.Proofs.Threads.Isolation

/-! What a script is cut into, stretch by stretch, and room for the pairs that come of it. As long as
the capacity for a chunk is counted right none of them is refused. -/
namespace BytePatch

namespace Feed
variable {σ : Type} {feed : Feed σ} {s s' : σ} {answers expected : List Answer} {last : Answer}

theorem clean_of_getD (h : ∀ count (hc : count < answers.length),
    answers[count] = expected.getD count last) (hexpected : Clean expected)
    (hlast : ∃ op?, last = .ok op?) : Clean answers := by
  intro answer hm
  obtain ⟨count, hc, rfl⟩ := List.getElem_of_mem hm
  rw [h count hc]
  by_cases hin : count < expected.length
  · rw [List.getD_eq_getElem _ _ hin]
    exact hexpected _ (List.getElem_mem hin)
  · rw [List.getD_eq_default _ _ (Nat.le_of_not_lt hin)]
    exact hlast

theorem Answers.clean (h : feed.Answers s expected last) (hexpected : Clean expected)
    (hlast : ∃ op?, last = .ok op?) (hp : feed.Polls s answers s') : Clean answers :=
  clean_of_getD (fun _ hc => h.polls hp hc) hexpected hlast

end Feed

namespace Queue

/-- However often the queue is polled, no poll fails. -/
def Unfailing (queue : Queue) : Prop :=
  ∀ answers after, (Stack.feed Source.base queue.depth).Polls queue.stack answers after →
    Feed.Clean answers

end Queue

namespace Aligner

/-- No pair that the queue gives is refused: neither does a poll fail of a layer that compares pairs
at once, nor of a pool on any schedule, nor of a pool that threads serve in any order. -/
structure Admits (aligner : Aligner) (queue : Queue) : Prop where
  align : (queue.under (.align aligner)).Unfailing
  pool : ∀ workers, 1 ≤ workers → ∀ early,
    (queue.under (.pool (.new aligner workers early))).Unfailing
  threads : ∀ workers, 1 ≤ workers → ∀ p,
    Polling.Reaches (Stack.feed Source.base queue.depth) (.new aligner workers queue.stack) p →
      Feed.Clean p.answers

section Admits
variable {queue source : Queue} {ops : Script} {aligner : Aligner}

private theorem clean_answers {entries : List Entry} (hfits : ∀ orig target,
    .pair orig target ∈ entries → cells orig target ≤ aligner.capacity) :
    Feed.Clean (entries.flatMap (Entry.answers aligner)) := by
  intro answer hm
  obtain ⟨entry, hentry, hm⟩ := List.mem_flatMap.1 hm
  cases entry with
  | single op => exact ⟨some op, List.mem_singleton.1 hm⟩
  | pair orig target =>
    rw [Entry.answers, if_pos (hfits orig target hentry)] at hm
    obtain ⟨op, -, rfl⟩ := List.mem_map.1 hm
    exact ⟨some op, rfl⟩

private theorem clean_answersAtOnce {entries : List Entry} (hfits : ∀ orig target,
    .pair orig target ∈ entries → cells orig target ≤ aligner.capacity) :
    Feed.Clean (entries.flatMap (Entry.answersAtOnce aligner)) := by
  intro answer hm
  obtain ⟨entry, hentry, hm⟩ := List.mem_flatMap.1 hm
  unfold Entry.answersAtOnce at hm
  split at hm
  · exact ⟨none, List.mem_singleton.1 hm⟩
  · exact clean_answers hfits answer (List.mem_flatMap.2 ⟨entry, hentry, hm⟩)

theorem admits_of_fits (h : queue.Delivers ops) (hcount : aligner.capacity ≤ maxCells)
    (hfits : ∀ orig target, .pair orig target ∈ Entry.cut ops →
      cells orig target ≤ aligner.capacity) : aligner.Admits queue where
  align answers after hp := by
    have hclean : Feed.Clean (ops.answersAtOnce aligner) := clean_answersAtOnce hfits
    have hnone : (ops.answersAtOnce aligner).find? (!·.isOk) = none := by
      refine List.find?_eq_none.2 fun answer hm => ?_
      obtain ⟨op?, rfl⟩ := hclean answer hm
      exact Bool.false_ne_true
    have hanswers := Queue.answers_align h hcount
    rw [hnone] at hanswers
    exact Feed.Answers.clean hanswers
      (fun answer hm => hclean answer ((List.takeWhile_prefix _).subset hm)) ⟨none, rfl⟩ hp
  pool workers hworkers early answers after hp :=
    Feed.Answers.clean (Queue.answers_pool h hcount hworkers early) (clean_answers hfits)
      ⟨none, rfl⟩ hp
  threads workers hworkers p hp :=
    Feed.clean_of_getD
      ((Polling.settles_of_answers hworkers (Queue.answers_pool h hcount hworkers)).agrees p hp)
      (clean_answers hfits) ⟨none, rfl⟩

/-- Of a script that has been cut no pair is refused if there is room for two strings of the size. -/
theorem admits_chunk {size : Nat} {method : Method} {divider : Divider}
    (haligner : forChunk size method divider = .ok aligner) (h : source.Delivers ops)
    (hsize : 1 ≤ size) : aligner.Admits (source.under (.chunk size)) := by
  obtain ⟨hlt, rfl⟩ := forChunk_eq_ok_iff.1 haligner
  have hshort : ∀ op ∈ Chunk.cut size ops, op.kind ≠ .copy → op.run ≤ size :=
    Chunk.run_le_of_mem_cut hsize
  refine admits_of_fits (h.under_chunk size) (le_maxCells_of_lt hlt) fun orig target hm => ?_
  obtain ⟨horig, htarget⟩ := Entry.mem_of_pair_mem_cut hm
  exact cells_le (hshort _ horig Kind.noConfusion) (hshort _ htarget Kind.noConfusion)

end Admits

end Aligner

namespace Queue

variable {source : Queue}

/-- A cut script keeps its copies as they are. Between them no delete and no insert is longer than
the chunk, and those of each kind are the slices of what was there, in the order that they had. So
the capacity for the chunk, where it can be counted, is enough for all pairs that come of it. -/
theorem drain_chunk_slices {ops : Script} (hsource : source.Delivers ops)
    (hvalid : ∀ op ∈ ops, op.Valid) {size : Nat} (hsize : 1 ≤ size) :
    ∃ out : Script, (∃ after, (source.under (.chunk size)).drain = (.ok (), out, after)) ∧
      (∀ op ∈ out, op.kind ≠ .copy → op.run ≤ size) ∧
      Stretches Script.Together ops.regions ops ∧ Stretches Script.Together out.regions out ∧
      List.Forall₂ (Chunk.Slices size) ops.regions out.regions ∧
      (size + 1 < 2 ^ 32 → ∀ method divider, ∃ aligner,
        Aligner.forChunk size method divider = .ok aligner ∧
        aligner.Admits (source.under (.chunk size))) := by
  have hshort : ∀ op ∈ Chunk.cut size ops, op.kind ≠ .copy → op.run ≤ size :=
    Chunk.run_le_of_mem_cut hsize
  refine ⟨Chunk.cut size ops, (hsource.under_chunk size).drain, hshort, ops.stretches_regions,
    (Chunk.cut size ops).stretches_regions,
    Chunk.slices_regions hsize fun op hop => (hvalid op hop).1, fun hroom method divider => ?_⟩
  have haligner := Aligner.forChunk_of_lt hroom method divider
  exact ⟨_, haligner, Aligner.admits_chunk haligner hsource hsize⟩

/-- Two sides of unlike lengths, one of them not a multiple of the size, and a delete that does not
remember its bytes. -/
def uneven : Script :=
  [.delete [1, 2, 3, 4, 5, 6, 7], .insert [8, 9], .copy 9, .copy 1, .skip 7, .delete [1],
    .insert [2, 3, 4, 5, 6]]

theorem drain_chunk_slices_uneven : ∃ out : Script,
    (∃ after, ((ofSource (.ofList uneven)).under (.chunk 3)).drain = (.ok (), out, after)) ∧
    ∃ first copies last, out.regions = [first, copies, last] ∧
      first.filter (·.kind = .delete) = [.delete [1, 2, 3], .delete [4, 5, 6], .delete [7]] ∧
      first.filter (·.kind = .insert) = [.insert [8, 9]] ∧ copies = [.copy 9, .copy 1] ∧
      last.filter (·.kind = .delete) = [.skip 3, .skip 3, .skip 1, .delete [1]] ∧
      last.filter (·.kind = .insert) = [.insert [2, 3, 4], .insert [5, 6]] := by
  obtain ⟨out, hdrain, -, -, -, hslices, -⟩ :=
    drain_chunk_slices (delivers_list uneven) (by decide) (show 1 ≤ 3 by decide)
  have hregions : uneven.regions = [[.delete [1, 2, 3, 4, 5, 6, 7], .insert [8, 9]],
    [.copy 9, .copy 1], [.skip 7, .delete [1], .insert [2, 3, 4, 5, 6]]] := by decide
  rw [hregions] at hslices
  refine ⟨out, hdrain, ?_⟩
  generalize out.regions = parts at hslices
  obtain _ | ⟨hfirst, _ | ⟨hcopies, _ | ⟨hlast, ⟨⟩⟩⟩⟩ := hslices
  exact ⟨_, _, _, rfl, hfirst.edits _ (by decide), hfirst.edits _ (by decide),
    hcopies.copies (by decide), hlast.edits _ (by decide), hlast.edits _ (by decide)⟩

end Queue

end BytePatch
