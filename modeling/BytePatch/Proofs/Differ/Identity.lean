import BytePatch.Proofs.Differ.Streams
import BytePatch.Proofs.Lattice.Identity

/-! Diffs that change nothing. A string and itself are cut alike, each chunk is copied, and the copies
merge into one; and a diff of two strings that differ has to delete or insert something. -/
namespace BytePatch

namespace Chunk

private theorem interleave_map {α : Type} (f g : α → Op) (as : List α) :
    interleave (as.map f) (as.map g) = as.flatMap fun a => [f a, g a] := by
  induction as with
  | nil => rfl
  | cons a as ih =>
    rw [List.map_cons, List.map_cons, interleave, ih]
    rfl

theorem inStep_self (size : Nat) (bytes : Bytes) :
    inStep size bytes bytes =
      (blocksOf size bytes).flatMap fun block => [.delete block, .insert block] :=
  interleave_map ..

end Chunk

namespace Script

/-- Each block copied. -/
def copied (blocks : List Bytes) : Script := blocks.map fun block => .copy block.length

theorem kind_of_mem_copied (blocks : List Bytes) : ∀ op ∈ copied blocks, op.kind = .copy :=
  List.forall_mem_map.2 fun _ _ => rfl

/-- Blocks that are each replaced by themselves are each copied, if that is what comes of them. -/
theorem compared_self {aligner : Aligner} {blocks : List Bytes}
    (h : ∀ block ∈ blocks, aligner.strategy.script block block = [.copy block.length]) :
    compared aligner (blocks.flatMap fun block => [.delete block, .insert block]) =
      copied blocks := by
  induction blocks with
  | nil => rfl
  | cons block blocks ih =>
    obtain ⟨hblock, hblocks⟩ := List.forall_mem_cons.1 h
    have hpair : (Op.delete block).pair? (.insert block) = some (block, block) := rfl
    have hrest := ih hblocks
    rw [compared] at hrest ⊢
    rw [List.flatMap_cons, List.cons_append, List.cons_append, List.nil_append,
      Entry.cut_pair hpair, List.flatMap_cons, hrest, Entry.made, hblock]
    rfl

private theorem kind_of_mem_grouped {kind : Kind} {ops : Script} (h : ∀ op ∈ ops, op.kind = kind) :
    ∀ op ∈ grouped ops, op.kind = kind := by
  intro op hop
  obtain ⟨a, ha, hkind⟩ := exists_kind_of_mem_grouped hop
  exact hkind ▸ h a ha

private theorem compacted_of_copies {ops : Script} (h : ∀ op ∈ ops, op.kind = .copy)
    (halternates : ops.Alternates) : ops.compacted = ops := by
  refine Reduced.compacted_eq (halternates.imp_of_mem_imp fun a b ha hb hne => ?_)
  exact absurd ((h a ha).trans (h b hb).symm) hne

private theorem forget_of_copies {ops : Script} (h : ∀ op ∈ ops, op.kind = .copy) :
    ops.map Op.forget = ops := by
  refine (List.map_congr_left fun op hop => ?_).trans (List.map_id ops)
  have hkind := h op hop
  cases op with
  | copy run => rfl
  | _ => cases hkind

end Script

namespace Differ

private theorem script_self {differ : Differ} (hv : differ.config.validate = .ok ())
    (hc : differ.config.chunkSize < 2 ^ 30)
    (hdivider : differ.config.method = .myers → differ.divider.KeepsEqual) (bytes : Bytes) :
    differ.script (Chunk.inStep differ.config.chunkSize bytes bytes) =
      Script.grouped (Script.copied (blocksOf differ.config.chunkSize bytes)) := by
  have hblocks : ∀ block ∈ blocksOf differ.config.chunkSize bytes,
      differ.pipeline.aligner.strategy.script block block = [.copy block.length] := by
    intro block hblock
    have hlength := Chunk.mem_blocksOf hblock
    have hpos := (pos_of_validate hv).1
    rw [Pipeline.strategy_aligner]
    exact Method.script_self differ.config.method hdivider (List.length_pos_iff.1 (by omega))
      (by omega)
  have hcopies := Script.kind_of_mem_grouped
    (Script.kind_of_mem_copied (blocksOf differ.config.chunkSize bytes))
  have hjoined : differ.joinedScript (Chunk.inStep differ.config.chunkSize bytes bytes) =
      Script.grouped (Script.copied (blocksOf differ.config.chunkSize bytes)) := by
    rw [joinedScript, Chunk.inStep_self, Script.compared_self hblocks]
    split
    · exact Script.compacted_of_copies hcopies (Script.alternates_grouped _)
    · rfl
  rw [script, hjoined]
  split
  · rfl
  · exact Script.forget_of_copies hcopies

/-- A string and itself make one copy of all of it, or nothing if there is nothing, whatever the
settings are; and a diff that neither deletes nor inserts is one of a string and itself. -/
theorem drain_diff_identity {config : Config} {early : Nat → Bool} {divider : Divider}
    {differ : Differ} (hnew : Differ.new config early divider = .ok differ)
    (hchunk : config.chunkSize < 2 ^ 30)
    (hdivider : config.method = .myers → divider.KeepsEqual)
    {orig target : Bytes} (horig : orig.length < 2 ^ 31) (htarget : target.length < 2 ^ 31) :
    ∃ queue ops after, differ.diff orig target = .ok queue ∧
      queue.drain = (.ok (), ops, after) ∧
      (orig = target → ops = if orig = [] then [] else [.copy orig.length]) ∧
      ((∀ op ∈ ops, op.kind ≠ .insert ∧ op.kind ≠ .delete) → orig = target) := by
  obtain ⟨hv, rfl⟩ := new_eq_ok_iff.1 hnew
  obtain ⟨queue, ops, after, hdiff, hdrain, -, hmakes⟩ :=
    exists_drained ⟨config, early, divider⟩ hv hchunk horig htarget
  refine ⟨queue, ops, after, hdiff, hdrain, ?_, ?_⟩
  · rintro rfl
    obtain ⟨queue', after', hdiff', hdrain'⟩ := drain_of_cut ⟨config, early, divider⟩ hv hchunk
      (Queue.carries_replacing orig orig).delivers
      (Chunk.cut_replacing (pos_of_validate hv).1 orig orig)
    obtain rfl : queue = queue' := Except.ok.inj (hdiff.symm.trans hdiff')
    rw [hdrain, script_self hv hchunk hdivider] at hdrain'
    obtain ⟨-, rfl, -⟩ := hdrain'
    exact hmakes.edits.eq_kept (Script.kind_of_mem_grouped (Script.kind_of_mem_copied _))
      (fun op hop => (hmakes.valid op hop).1) (Script.alternates_grouped _)
  · intro hkinds
    refine hmakes.edits.eq_of_copies fun op hop => ?_
    have hstop := op.kind_ne_stop
    obtain ⟨hinsert, hdelete⟩ := hkinds op hop
    cases hk : op.kind <;> simp_all

/-- One byte over and over, in chunks of which the last one is shorter. -/
theorem drain_diff_identity_repeated : ∃ queue ops after,
    Differ.diff ⟨⟨2, 3, .myers, true, false, true⟩, Pool.lazy, .myers⟩ [7, 7, 7] [7, 7, 7] =
      .ok queue ∧
    queue.drain = (.ok (), ops, after) ∧ ops = [.copy 3] := by
  have hnew : Differ.new ⟨2, 3, .myers, true, false, true⟩ Pool.lazy = .ok _ := rfl
  obtain ⟨queue, ops, after, hdiff, hdrain, hsame, -⟩ := drain_diff_identity hnew (by decide)
    (fun _ => Divider.keepsEqual_myers) (show [7, 7, 7].length < 2 ^ 31 by decide)
    (show [7, 7, 7].length < 2 ^ 31 by decide)
  exact ⟨queue, ops, after, hdiff, hdrain, hsame rfl⟩

end Differ

end BytePatch
