import BytePatch.Proofs.Differ.Diff
import BytePatch.Proofs.Stage.Regrouping
import BytePatch.Proofs.Stage.Window
import BytePatch.Proofs.Stream.Chunks
import BytePatch.Proofs.Threads.Parallel

/-! Streams compared as they are read. What comes out is what comes out for the strings they
deliver, in whatever blocks they do, since from the cutting layer on the same chunks go up. -/
namespace BytePatch.Differ

/-- What the layers of a diff but the last make of chunks. -/
def joinedScript (differ : Differ) (chunks : Script) : Script :=
  let ops := (chunks.compared differ.pipeline.aligner).grouped
  if differ.config.compact then ops.compacted else ops

/-- What all of them make of chunks. -/
def script (differ : Differ) (chunks : Script) : Script :=
  if differ.config.keepUndo then differ.joinedScript chunks
  else (differ.joinedScript chunks).map Op.forget

private theorem compares_chunks {differ : Differ} (hv : differ.config.validate = .ok ())
    (hc : differ.config.chunkSize < 2 ^ 30) {source : Queue} {chunks : Script}
    (hsource : source.Delivers chunks)
    (hruns : ∀ op ∈ chunks, 0 < op.run ∧ op.run ≤ differ.config.chunkSize) :
    (source.under differ.comparing).Delivers (chunks.compared differ.pipeline.aligner) := by
  have hmade : ∀ entry ∈ Entry.cut chunks, entry.Made differ.pipeline.aligner := by
    rintro entry hm orig target rfl
    obtain ⟨horig, htarget⟩ := Entry.mem_of_pair_mem_cut hm
    rw [(graph_eq hc).2]
    exact Aligner.align_of_short hc _ (hruns _ horig).2 (hruns _ htarget).2
  unfold comparing
  split
  · exact Queue.delivers_pool hsource hmade (pos_of_validate hv).2 differ.early
  · have hvalid : ∀ op ∈ chunks, op.Valid := by
      intro op hop
      obtain ⟨hpos, hle⟩ := hruns op hop
      exact ⟨hpos, Nat.lt_of_le_of_lt hle (Nat.lt_trans hc (by decide))⟩
    have hkept : ∀ orig target, .pair orig target ∈ Entry.cut chunks →
        ¬ differ.config.method.Loses orig target := by
      intro orig target hm hlost
      have hle : target.length ≤ differ.config.chunkSize :=
        (hruns _ (Entry.mem_of_pair_mem_cut hm).2).2
      have hlong : Priced.ceiling < 2 ^ 30 + 4 :=
        Nat.lt_of_le_of_lt hlost.length_le (by omega)
      exact absurd hlong (by decide)
    exact Queue.delivers_align hsource hmade
      (Entry.made_ne_nil hvalid (Pipeline.strategy_aligner differ.pipeline) hkept)

private theorem delivers_joined {differ : Differ} (hv : differ.config.validate = .ok ())
    (hc : differ.config.chunkSize < 2 ^ 30) {source : Queue} {ops : Script} {orig target : Bytes}
    (hsource : source.Delivers ops)
    (hcut : Chunk.cut differ.config.chunkSize ops =
      Chunk.inStep differ.config.chunkSize orig target) :
    (differ.joined source).Delivers
      (differ.joinedScript (Chunk.inStep differ.config.chunkSize orig target)) := by
  have hpos := (pos_of_validate hv).1
  have hchunks := hsource.under_chunk differ.config.chunkSize
  rw [hcut] at hchunks
  have hgrouped := (compares_chunks hv hc hchunks fun op hop =>
    Chunk.run_of_mem_inStep hpos hop).under_coalesce
  unfold joined joinedScript
  split
  · exact hgrouped.under_compact
  · exact hgrouped

/-- A source that is cut into the chunks of two strings is drained to one script. -/
theorem drain_of_cut (differ : Differ) (hv : differ.config.validate = .ok ())
    (hc : differ.config.chunkSize < 2 ^ 30) {source : Queue} {ops : Script} {orig target : Bytes}
    (hsource : source.Delivers ops)
    (hcut : Chunk.cut differ.config.chunkSize ops =
      Chunk.inStep differ.config.chunkSize orig target) :
    ∃ queue after, differ.pipeline.build differ.crews source = .ok queue ∧
      queue.drain =
        (.ok (), differ.script (Chunk.inStep differ.config.chunkSize orig target), after) := by
  have hjoined := delivers_joined hv hc hsource hcut
  rw [build_eq hv hc]
  unfold script
  cases differ.config.keepUndo with
  | true =>
    obtain ⟨after, hdrain⟩ := hjoined.drain
    exact ⟨_, after, rfl, hdrain⟩
  | false =>
    have hyields : (differ.joined source).Yields _ := hjoined.yields
    obtain ⟨after, hdrain⟩ := hyields.under_forget.drain
    exact ⟨_, after, rfl, hdrain⟩

/-- Comparing two streams gives just what comparing the strings gives that they deliver, if neither
fails. It depends neither on the blocks they are read in nor on the schedule of the pool. -/
theorem drain_diffStreams_eq {config : Config} {early early' : Nat → Bool} {divider : Divider}
    {whole streamed : Differ} (hwhole : Differ.new config early divider = .ok whole)
    (hstreamed : Differ.new config early' divider = .ok streamed)
    (hchunk : config.chunkSize < 2 ^ 30) {orig target : Reader} (horig : orig.failure? = none)
    (htarget : target.failure? = none) :
    ∃ queue queue' ops after after',
      whole.diff orig.contents target.contents = .ok queue ∧
      streamed.diffStreams orig target = .ok queue' ∧
      queue.drain = (.ok (), ops, after) ∧ queue'.drain = (.ok (), ops, after') := by
  obtain ⟨hv, rfl⟩ := new_eq_ok_iff.1 hwhole
  obtain ⟨-, rfl⟩ := new_eq_ok_iff.1 hstreamed
  have hpos := (pos_of_validate hv).1
  obtain ⟨queue, after, hbuild, hdrain⟩ := drain_of_cut ⟨config, early, divider⟩ hv hchunk
    (Queue.carries_replacing orig.contents target.contents).delivers
    (Chunk.cut_replacing hpos orig.contents target.contents)
  obtain ⟨queue', after', hbuild', hdrain'⟩ := drain_of_cut ⟨config, early', divider⟩ hv hchunk
    (Queue.delivers_streams horig htarget hpos)
    (Chunk.cut_inStep hpos orig.contents target.contents)
  exact ⟨queue, queue', _, after, after', hbuild, hbuild', hdrain, hdrain'⟩

/-- Blocks that do not fit the chunks, and a target that ends in the middle of one. -/
theorem drain_diffStreams_eq_uneven : ∃ whole streamed queue queue' ops after after',
    Differ.new ⟨3, 2, .inertial, true, true, true⟩ Pool.lazy = .ok whole ∧
    Differ.new ⟨3, 2, .inertial, true, true, true⟩ (fun _ => true) = .ok streamed ∧
    whole.diff [1, 2, 3, 4, 5, 6, 7] [1, 9, 3, 4] = .ok queue ∧
    streamed.diffStreams ⟨[[1, 2], [3, 4, 5, 6], [7]], none⟩ ⟨[[1], [9], [3, 4]], none⟩ =
      .ok queue' ∧
    queue.drain = (.ok (), ops, after) ∧ queue'.drain = (.ok (), ops, after') := by
  have hwhole : Differ.new ⟨3, 2, .inertial, true, true, true⟩ Pool.lazy = .ok _ := rfl
  have hstreamed : Differ.new ⟨3, 2, .inertial, true, true, true⟩ (fun _ => true) = .ok _ := rfl
  have horig : (⟨[[1, 2], [3, 4, 5, 6], [7]], none⟩ : Reader).failure? = none := rfl
  have htarget : (⟨[[1], [9], [3, 4]], none⟩ : Reader).failure? = none := rfl
  obtain ⟨queue, queue', ops, after, after', hdiff, hstreams, hdrain, hdrain'⟩ :=
    drain_diffStreams_eq hwhole hstreamed (by decide) horig htarget
  exact ⟨_, _, queue, queue', ops, after, after', hwhole, hstreamed, hdiff, hstreams, hdrain,
    hdrain'⟩

end BytePatch.Differ
