import BytePatch.Proofs.Queue.Delivery
import BytePatch.Proofs.Stage.Cut
import BytePatch.Proofs.Stream.Replay

/-! Two strings chunk by chunk. Whether they are read in step from two streams or cut as a whole,
the same deletes and inserts come out, and cutting these once more leaves them as they are. -/
namespace BytePatch

namespace Chunk
variable {size : Nat}

private theorem pieces_eq_blocks (hs : 0 < size) {bytes : Bytes} (hne : bytes ≠ []) :
    pieces size (.delete bytes) = (blocksOf size bytes).map .delete ∧
      pieces size (.insert bytes) = (blocksOf size bytes).map .insert := by
  by_cases h : bytes.length ≤ size
  · rw [blocksOf_of_length_le hs hne h]
    exact ⟨if_pos h, if_pos h⟩
  · exact ⟨if_neg h, if_neg h⟩

/-- A delete for each block of the one string and an insert for each of the other, turn about. -/
def inStep (size : Nat) (orig target : Bytes) : Script :=
  interleave ((blocksOf size orig).map .delete) ((blocksOf size target).map .insert)

private theorem interleave_nil_left (ops : List Op) : interleave [] ops = ops := by
  rw [interleave]

private theorem interleave_nil_right (ops : List Op) : interleave ops [] = ops := by
  cases ops <;> rfl

/-- One string replaced by another is cut as if both were read in step. -/
theorem cut_replacing (hs : 0 < size) (orig target : Bytes) :
    cut size (Script.removal orig ++ Script.addition target) = inStep size orig target := by
  have hdelete : ∀ run, Op.delete orig ≠ .copy run := nofun
  have hinsert : ∀ run, Op.insert target ≠ .copy run := nofun
  unfold Script.removal Script.addition inStep
  by_cases ho : orig = [] <;> by_cases ht : target = []
  · subst ho ht
    simp [cut, blocksOf, interleave_nil_left]
  · subst ho
    rw [if_pos rfl, if_neg ht, List.nil_append, cut_singleton size hinsert,
      (pieces_eq_blocks hs ht).2, blocksOf, List.map_nil, interleave_nil_left]
  · subst ht
    rw [if_pos rfl, if_neg ho, List.append_nil, cut_singleton size hdelete,
      (pieces_eq_blocks hs ho).1, blocksOf.eq_1, List.map_nil, interleave_nil_right]
  · have hr : replaces (.delete orig) (.insert target) = true := rfl
    rw [if_neg ho, if_neg ht, List.singleton_append, cut_of_ne_copy size hdelete, if_pos hr, cut,
      List.append_nil, (pieces_eq_blocks hs ho).1, (pieces_eq_blocks hs ht).2]

private theorem cut_of_kind {kind : Kind} {ops : Script}
    (h : ∀ op ∈ ops, op.kind = kind ∧ op.run ≤ size) : cut size ops = ops := by
  induction ops with
  | nil => rfl
  | cons op ops ih =>
    have hop := h op List.mem_cons_self
    have hrest : ∀ next ∈ ops, next.kind = kind ∧ next.run ≤ size :=
      fun next hnext => h next (List.mem_cons_of_mem _ hnext)
    have hapart : ∀ next ∈ ops.head?, ¬ replaces op next := by
      intro next hnext hr
      have hkind := (hrest next (List.mem_of_mem_head? hnext)).1
      exact (kinds_of_replaces hr).2.2 (hop.1.trans hkind.symm)
    have hpieces : pieces size op = [op] := if_pos hop.2
    rw [cut_cons size hapart, hpieces, ih hrest, List.singleton_append]

private theorem cut_interleave {deletes inserts : Script}
    (hd : ∀ op ∈ deletes, op.kind = .delete ∧ op.run ≤ size)
    (hi : ∀ op ∈ inserts, op.kind = .insert ∧ op.run ≤ size) :
    cut size (interleave deletes inserts) = interleave deletes inserts := by
  fun_induction interleave deletes inserts with
  | case1 delete deletes insert inserts ih =>
    obtain ⟨hdelete, hdeletes⟩ := List.forall_mem_cons.1 hd
    obtain ⟨hinsert, hinserts⟩ := List.forall_mem_cons.1 hi
    have hcopy : ∀ run, delete ≠ .copy run := by
      rintro run rfl
      cases hdelete.1
    have hr : replaces delete insert := by simp [replaces, hdelete.1, hinsert.1, Kind.inverse]
    have hfirst : pieces size delete = [delete] := if_pos hdelete.2
    have hsecond : pieces size insert = [insert] := if_pos hinsert.2
    rw [cut_of_ne_copy size hcopy, if_pos hr, hfirst, hsecond, ih hdeletes hinserts]
    rfl
  | case2 inserts => exact cut_of_kind hi
  | case3 deletes => exact cut_of_kind hd

theorem run_of_mem_inStep (hs : 0 < size) {orig target : Bytes} {op : Op}
    (h : op ∈ inStep size orig target) : 0 < op.run ∧ op.run ≤ size := by
  have block {bytes : Bytes} {make : Bytes → Op} (hmake : ∀ bytes, (make bytes).run = bytes.length)
      (h : op ∈ (blocksOf size bytes).map make) : 0 < op.run ∧ op.run ≤ size := by
    obtain ⟨block, hblock, rfl⟩ := List.mem_map.1 h
    have hlength := mem_blocksOf hblock
    rw [hmake]
    omega
  rcases mem_interleave h with h | h
  · exact block (fun _ => rfl) h
  · exact block (fun _ => rfl) h

theorem cut_inStep (hs : 0 < size) (orig target : Bytes) :
    cut size (inStep size orig target) = inStep size orig target := by
  have short {bytes block : Bytes} (h : block ∈ blocksOf size bytes) : block.length ≤ size := by
    have := mem_blocksOf h
    omega
  apply cut_interleave
  · intro op hop
    obtain ⟨block, hblock, rfl⟩ := List.mem_map.1 hop
    exact ⟨rfl, short hblock⟩
  · intro op hop
    obtain ⟨block, hblock, rfl⟩ := List.mem_map.1 hop
    exact ⟨rfl, short hblock⟩

private theorem inStep_eq (hs : 0 < size) (orig target : Bytes) :
    inStep size orig target =
      Script.removal (orig.take size) ++ Script.addition (target.take size) ++
        inStep size (orig.drop size) (target.drop size) := by
  have htake {bytes : Bytes} (h : bytes ≠ []) : bytes.take size ≠ [] := by
    simp [h, Nat.ne_of_gt hs]
  unfold inStep Script.removal Script.addition
  by_cases ho : orig = [] <;> by_cases ht : target = []
  · subst ho ht
    simp [blocksOf, interleave_nil_left]
  · subst ho
    rw [blocksOf_eq hs ht]
    simp [blocksOf, interleave_nil_left, htake ht]
  · subst ht
    rw [blocksOf_eq hs ho]
    simp [blocksOf, interleave_nil_right, htake ho]
  · rw [blocksOf_eq hs ho, blocksOf_eq hs ht, if_neg (htake ho), if_neg (htake ht)]
    rfl

end Chunk

namespace Streams

/-- What two streams that do not fail have still to give. -/
private structure Clean (streams : Streams) (orig target : Bytes) : Prop where
  orig_whole : streams.orig.Whole orig
  target_whole : streams.target.Whole target
  chunk_pos : 0 < streams.chunk
  exhausted : streams.exhausted = true → orig = [] ∧ target = []

private theorem Clean.next {streams : Streams} {orig target : Bytes}
    (h : streams.Clean orig target) :
    ∃ after, streams.next = (.ok (Script.removal (orig.take streams.chunk) ++
        Script.addition (target.take streams.chunk)), after) ∧
      after.Clean (orig.drop streams.chunk) (target.drop streams.chunk) ∧
      after.chunk = streams.chunk := by
  obtain ⟨left, hleft, hleft'⟩ := h.orig_whole.take streams.chunk
  obtain ⟨right, hright, hright'⟩ := h.target_whole.take streams.chunk
  unfold Streams.next
  simp only [hleft, hright]
  by_cases hdry : orig.take streams.chunk = [] ∧ target.take streams.chunk = []
  · have hpos := h.chunk_pos
    obtain ⟨horig, htarget⟩ := hdry
    rw [if_pos ⟨horig, htarget⟩, horig, htarget]
    refine ⟨_, rfl, ⟨hleft', hright', hpos, fun _ => ?_⟩, rfl⟩
    have hempty {bytes : Bytes} (h : bytes.take streams.chunk = []) :
        bytes.drop streams.chunk = [] := by
      rcases List.take_eq_nil_iff.1 h with hzero | rfl
      · exact absurd hzero (Nat.ne_of_gt hpos)
      · exact List.drop_nil
    exact ⟨hempty horig, hempty htarget⟩
  · rw [if_neg hdry]
    refine ⟨_, rfl, ⟨hleft', hright', h.chunk_pos, fun hend => ?_⟩, rfl⟩
    obtain ⟨rfl, rfl⟩ := h.exhausted hend
    exact ⟨List.drop_nil, List.drop_nil⟩

end Streams

namespace Source
variable {streams after : Streams}

theorem poll_streams_cons (op : Op) (pending : List Op) :
    poll ⟨⟨[], op :: pending⟩, .streams streams⟩ =
      (.ok (some op), ⟨⟨[], pending⟩, .streams streams⟩) := by
  simp [poll, shift, Buffers.shiftReady]

theorem poll_streams_ok {ops : List Op} (hend : ¬ streams.exhausted = true)
    (hnext : streams.next = (.ok ops, after)) :
    poll ⟨⟨[], []⟩, .streams streams⟩ = (.ok ops.head?, ⟨⟨[], ops.tail⟩, .streams after⟩) := by
  cases ops <;> simp [poll, shift, Buffers.shiftReady, hend, hnext]

theorem poll_streams_error {fault : Fault} (hend : ¬ streams.exhausted = true)
    (hnext : streams.next = (.error fault, after)) :
    poll ⟨⟨[], []⟩, .streams streams⟩ = (.error fault, ⟨⟨[], []⟩, .streams after⟩) := by
  simp [poll, shift, hend, hnext]

/-- A source of two streams, what it holds and what they have still to give. -/
private def Reads (size : Nat) (source : Source) (ops : Script) : Prop :=
  ∃ pending streams orig target, source = ⟨⟨[], pending⟩, .streams streams⟩ ∧
    streams.Clean orig target ∧ streams.chunk = size ∧
    ops = pending ++ Chunk.inStep size orig target

theorem replacing_take_ne_nil {size : Nat} (hs : 0 < size) {orig target : Bytes}
    (h : ¬ (orig = [] ∧ target = [])) :
    Script.removal (orig.take size) ++ Script.addition (target.take size) ≠ [] := by
  unfold Script.removal Script.addition
  intro hnil
  refine h ?_
  have hboth := List.append_eq_nil_iff.1 hnil
  simpa [Nat.ne_of_gt hs] using hboth

private theorem Reads.poll {size : Nat} {source : Source} {ops : Script}
    (h : source.Reads size ops) :
    source.poll.1 = .ok ops.head? ∧ source.poll.2.Reads size ops.tail := by
  obtain ⟨pending, streams, orig, target, rfl, hclean, rfl, rfl⟩ := h
  cases pending with
  | cons op pending =>
    rw [poll_streams_cons]
    exact ⟨rfl, pending, streams, orig, target, rfl, hclean, rfl, rfl⟩
  | nil =>
    have hnil : Chunk.inStep streams.chunk [] [] = [] := by
      simp [Chunk.inStep, blocksOf, Chunk.interleave]
    obtain ⟨after, hnext, hafter, hchunk⟩ := hclean.next
    by_cases hdry : orig = [] ∧ target = []
    · obtain ⟨rfl, rfl⟩ := hdry
      rw [hnil]
      by_cases hend : streams.exhausted = true
      · have hpoll : Source.poll ⟨⟨[], []⟩, .streams streams⟩ =
            (.ok none, ⟨⟨[], []⟩, .streams streams⟩) := by
          simp [Source.poll, Source.shift, Buffers.shiftReady, hend]
        rw [hpoll]
        exact ⟨rfl, [], streams, [], [], rfl, hclean, rfl, hnil.symm⟩
      · have hnext' : streams.next = (.ok [], after) := by
          simpa [Script.removal, Script.addition] using hnext
        rw [poll_streams_ok hend hnext']
        rw [List.drop_nil] at hafter
        exact ⟨rfl, [], after, [], [], rfl, hafter, hchunk, hnil.symm⟩
    · -- One side may have run out, but then the other still gives something to hand out.
      have hend : ¬ streams.exhausted = true := fun hend => hdry (hclean.exhausted hend)
      rw [List.nil_append, Chunk.inStep_eq hclean.chunk_pos, poll_streams_ok hend hnext]
      cases hops : Script.removal (orig.take streams.chunk) ++
          Script.addition (target.take streams.chunk) with
      | nil => exact absurd hops (replacing_take_ne_nil hclean.chunk_pos hdry)
      | cons op ops => exact ⟨rfl, ops, after, _, _, rfl, hafter, hchunk, rfl⟩

end Source

/-- Two streams that do not fail are read in step, whatever their reads deliver. -/
theorem Queue.delivers_streams {orig target : Reader} (ho : orig.failure? = none)
    (ht : target.failure? = none) {size : Nat} (hs : 0 < size) :
    (ofSource (.comparing orig target size)).Delivers
      (Chunk.inStep size orig.contents target.contents) := by
  refine Feed.delivers_of_invariant (Source.Reads size) (fun _ _ h => h.poll) ?_
  have hmax : max 1 size = size := Nat.max_eq_right hs
  refine ⟨[], ⟨orig, target, max 1 size, false⟩, _, _, rfl, ?_, hmax, rfl⟩
  exact ⟨⟨rfl, ho⟩, ⟨rfl, ht⟩, by rwa [hmax], nofun⟩

end BytePatch
