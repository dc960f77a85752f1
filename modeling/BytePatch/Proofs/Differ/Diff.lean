import Mathlib.Algebra.Ring.Nat
import BytePatch.Differ
import BytePatch.Proofs.Lattice.Comparison
import BytePatch.Proofs.Pipeline.Building
import BytePatch.Proofs.Stage.Cut
import BytePatch.Proofs.Stage.Undo

/-! The script of a diff: whatever the settings are, it edits the one string into the other, and
nothing fails on the way, since no pair is larger than the chunks it is cut into. -/
namespace BytePatch

namespace Script

theorem edits_replacing (orig target : Bytes) :
    Edits (removal orig ++ addition target) orig target := by
  have hr : Edits (removal orig) orig [] := by
    unfold removal
    split
    · next h => rw [h]; exact .nil
    · exact edits_singleton_iff.2 ⟨rfl, rfl⟩
  have ha : Edits (addition target) [] target := by
    unfold addition
    split
    · next h => rw [h]; exact .nil
    · exact edits_singleton_iff.2 ⟨rfl, rfl⟩
  simpa using hr.append ha

end Script

/-- The ops edit the one string into the other. All of them can be taken back, or else none that
deletes can, as the settings ask. -/
structure Config.Makes (config : Config) (ops : Script) (orig target : Bytes) : Prop where
  edits : Script.Edits ops orig target
  valid : ∀ op ∈ ops, op.Valid
  unforgotten : config.keepUndo = true → ops.Unforgotten
  forgotten : config.keepUndo = false → ∀ op ∈ ops, op.Forgotten

theorem Aligner.align_of_short {chunk : Nat} (hc : chunk < 2 ^ 30) (strategy : Strategy)
    {orig target : Bytes} (ho : orig.length ≤ chunk) (ht : target.length ≤ chunk) :
    align ⟨strategy, (chunk + 1) * (chunk + 1)⟩ orig target = .ok (strategy.script orig target) := by
  have hcells : cells orig target ≤ (chunk + 1) * (chunk + 1) := cells_le ho ht
  exact align_of_fits (Nat.le_min.2 ⟨hcells, hcells.trans (le_maxCells_of_lt (by omega))⟩)

namespace Differ

/-- On what terms the ops of a diff stand once they are cut and compared. -/
private def cutTerms (config : Config) : Terms := ⟨some config.chunkSize, false⟩

private def joinedTerms : Terms := ⟨none, false⟩

private def forgottenTerms : Terms := ⟨none, true⟩

private theorem fits_cut {config : Config} (hc : 0 < config.chunkSize) (orig target : Bytes) :
    (cutTerms config).Fits
      (Chunk.cut config.chunkSize (Script.removal orig ++ Script.addition target)) := by
  intro piece hp
  obtain ⟨op, hop, hpiece⟩ := Chunk.piece_of_mem_cut hp
  obtain ⟨hpos, hkind, hskip⟩ := Script.mem_replacing hop
  refine ⟨hpiece.pos hpos, ?_, ?_⟩
  · rintro limit hl
    cases hl
    have := hpiece.short hkind
    omega
  · rintro - run rfl
    obtain ⟨run', rfl⟩ := hpiece.skip run rfl
    exact hskip run' rfl

section Aligner
variable {differ : Differ} (hc : differ.config.chunkSize < 2 ^ 30)
include hc

theorem graph_eq : differ.pipeline.graph = .ok differ.pipeline.aligner ∧
    differ.pipeline.aligner = ⟨differ.config.method.strategyWith differ.divider,
      (differ.config.chunkSize + 1) * (differ.config.chunkSize + 1)⟩ :=
  Pipeline.graph_of_lt (show differ.config.chunkSize + 1 < 2 ^ 32 by omega)

private theorem within_aligner :
    differ.pipeline.aligner.Within (cutTerms differ.config).refinement fun _ => False := by
  refine Aligner.within fun ho hi fault h => ?_
  have halign := Aligner.align_of_short hc (differ.config.method.strategyWith differ.divider)
    (ho.short _ rfl) (hi.short _ rfl)
  rw [(graph_eq hc).2] at h
  exact nomatch halign.symm.trans h

private theorem keeps_aligner (orig target : Bytes) :
    differ.pipeline.aligner.Keeps (cutTerms differ.config).refinement orig target := by
  intro ops hfit halign
  have hshort : target.length ≤ differ.config.chunkSize :=
    (hfit (.insert target) (by simp)).short _ rfl
  refine Aligner.keeps_of_counts (fun _ => ?_) hfit halign
  rw [Pipeline.strategy_aligner]
  exact Method.counts_of_short _ _ orig (by omega)

end Aligner

theorem pos_of_validate {config : Config} (h : config.validate = .ok ()) :
    0 < config.chunkSize ∧ 0 < config.workers := by
  unfold Config.validate at h
  split at h
  · cases h
  split at h
  · cases h
  next hc hw => exact ⟨Nat.pos_of_ne_zero hc, Nat.pos_of_ne_zero hw⟩

theorem new_eq_ok_iff {config : Config} {early : Nat → Bool} {divider : Divider} {differ : Differ} :
    new config early divider = .ok differ ↔
      config.validate = .ok () ∧ differ = ⟨config, early, divider⟩ := by
  unfold new
  cases config.validate with
  | error fault => simp
  | ok => simp [eq_comm]

/-- The layer that compares pairs. -/
def comparing (differ : Differ) : Work :=
  if differ.config.parallel then
    .pool (.new differ.pipeline.aligner differ.config.workers differ.early)
  else .align differ.pipeline.aligner

/-- All layers but the one that makes deletes forget. -/
def joined (differ : Differ) (source : Queue) : Queue :=
  let cut := source.under (.chunk differ.config.chunkSize)
  let queue := (cut.under differ.comparing).under .coalesce
  if differ.config.compact then queue.under .compact else queue

private theorem work_comparing {differ : Differ} (h : differ.config.validate = .ok ())
    (hc : differ.config.chunkSize < 2 ^ 30) :
    differ.pipeline.work (.ok differ.early) none
        (if differ.config.parallel then .parallelGraph else .graph) =
      .ok (some differ.comparing, none) := by
  have hworkers : differ.pipeline.workers ≠ 0 := (pos_of_validate h).2.ne'
  unfold comparing
  split
  · rw [Pipeline.work, Pipeline.pool, if_neg hworkers]
    rfl
  · rw [Pipeline.work, (graph_eq hc).1]

theorem build_eq {differ : Differ} (h : differ.config.validate = .ok ())
    (hc : differ.config.chunkSize < 2 ^ 30) (source : Queue) :
    differ.pipeline.build differ.crews source =
      .ok (if differ.config.keepUndo then differ.joined source
        else (differ.joined source).under .forget) := by
  have hchunk : differ.pipeline.chunk ≠ 0 := (pos_of_validate h).1.ne'
  have hstages : differ.pipeline.stages = differ.config.stages := rfl
  have horig : differ.pipeline.orig? = none := rfl
  have hcomparing := work_comparing h hc
  have hcut (crew : Crew) : differ.pipeline.work crew none .chunk =
      .ok (some (.chunk differ.config.chunkSize), none) := rfl
  have hcoalesce (crew : Crew) : differ.pipeline.work crew none .coalesce =
      .ok (some .coalesce, none) := rfl
  have hcompacting (crew : Crew) : differ.pipeline.work crew none .compact =
      .ok (some .compact, none) := rfl
  have hforget (crew : Crew) : differ.pipeline.work crew none .oneWay =
      .ok (some .forget, none) := rfl
  rw [Pipeline.build, if_neg hchunk, hstages, horig, Config.stages]
  cases hcompact : differ.config.compact <;> cases hkeep : differ.config.keepUndo <;>
    simp [Pipeline.works, crews, hcut, hcomparing, hcoalesce, hcompacting, hforget, joined, hcompact,
      Functor.map, Except.map]

private theorem carries_joined {differ : Differ} (h : differ.config.validate = .ok ())
    (hc : differ.config.chunkSize < 2 ^ 30) (orig target : Bytes) :
    (differ.joined (.ofSource (.replacing orig target))).Carries joinedTerms.refinement
      (fun _ => False)
      (Chunk.cut differ.config.chunkSize (Script.removal orig ++ Script.addition target)) := by
  have hpos := pos_of_validate h
  have hfits := fits_cut hpos.1 orig target
  have hcut := ((Queue.carries_replacing orig target).under_chunk differ.config.chunkSize).weaken
    (cutTerms differ.config).refinement (fun _ _ heq => heq ▸ Terms.Keeps.refl _)
    (fun _ => id) hfits
  have hcompared := hcut.under differ.comparing
    (by unfold comparing; split <;> exact within_aligner hc)
    (by unfold comparing; split <;> simp [Work.Fresh, Pool.new, hpos.2])
    (by unfold comparing; split <;> exact fun orig target _ => keeps_aligner hc orig target)
  have hwider : ∀ op, (cutTerms differ.config).Allows op → joinedTerms.Allows op :=
    fun op ha => ⟨ha.pos, nofun, ha.remembers⟩
  have hjoined := (hcompared.weaken joinedTerms.refinement
    (fun hf _ hk => hk.weaken hwider hf) (fun _ => id)
    fun op hop => hwider op (hfits op hop)).under .coalesce
    (fun _ _ _ _ => Terms.keeps_merge rfl) trivial trivial
  unfold joined
  split
  · exact hjoined.under .compact (fun _ _ _ _ => Terms.keeps_combine rfl) trivial trivial
  · exact hjoined

private theorem allows_of_cut {config : Config} {terms : Terms}
    (hl : terms.limit? = none) {op : Op} (h : (cutTerms config).Allows op) :
    terms.Allows op :=
  ⟨h.pos, fun limit hlimit => by simp [hl] at hlimit, fun _ => h.remembers rfl⟩

private theorem encodes_pair {queue : Queue} {config : Config} {terms : Terms}
    {orig target : Bytes} (hpos : 0 < config.chunkSize) (ho : orig.length < 2 ^ 31)
    (ht : target.length < 2 ^ 31) (hl : terms.limit? = none)
    (h : queue.Carries terms.refinement (fun _ => False)
      (Chunk.cut config.chunkSize (Script.removal orig ++ Script.addition target))) :
    ∃ ops after, queue.drain = (.ok (), ops, after) ∧
      queue.encode.1 = .ok (Script.encode ops) ∧ Script.Edits ops orig target ∧
      ∀ op ∈ ops, op.Valid ∧ terms.Allows op := by
  have key := h.drain
  rcases hd : queue.drain with ⟨fault | _, ops, after⟩
  · rw [hd] at key
    exact key.elim
  rw [hd] at key
  have hkeeps : terms.Keeps _ ops := key
  have hfits := fits_cut hpos orig target
  have hall := hkeeps.allows fun op hop => allows_of_cut hl (hfits op hop)
  have hcut : terms.Keeps _ _ :=
    Chunk.keeps_cut config.chunkSize (Script.removal orig ++ Script.addition target)
  have hedits := (hcut.trans hkeeps).edits (Script.edits_replacing orig target)
  refine ⟨ops, after, rfl, by simp [Queue.encode, hd], hedits, fun op hop => ⟨?_, hall op hop⟩⟩
  have hrun := hedits.run_le hop
  exact ⟨(hall op hop).pos, Nat.lt_of_le_of_lt hrun
    (Nat.lt_trans (Nat.max_lt.2 ⟨ho, ht⟩) (by decide))⟩

/-- Nothing fails while two strings are compared. -/
theorem exists_drained (differ : Differ) (hv : differ.config.validate = .ok ())
    (hc : differ.config.chunkSize < 2 ^ 30) {orig target : Bytes} (ho : orig.length < 2 ^ 31)
    (ht : target.length < 2 ^ 31) :
    ∃ queue ops after, differ.diff orig target = .ok queue ∧
      queue.drain = (.ok (), ops, after) ∧ queue.encode.1 = .ok (Script.encode ops) ∧
      differ.config.Makes ops orig target := by
  have hpos := (pos_of_validate hv).1
  have hjoined := carries_joined hv hc orig target
  unfold diff
  rw [build_eq hv hc]
  cases hk : differ.config.keepUndo with
  | true =>
    obtain ⟨ops, after, hdrain, hencode, hedits, hall⟩ := encodes_pair hpos ho ht rfl hjoined
    refine ⟨_, ops, after, rfl, hdrain, hencode, hedits, fun op hop => (hall op hop).1,
      fun _ run hm => ?_, by simp [hk]⟩
    exact (hall _ hm).2.remembers rfl run rfl
  | false =>
    have hwider : ∀ op, joinedTerms.Allows op → forgottenTerms.Allows op :=
      fun op ha => ⟨ha.pos, nofun, nofun⟩
    have hfits := fits_cut hpos orig target
    have hforget := (hjoined.weaken forgottenTerms.refinement
      (fun hf _ hkeeps => hkeeps.weaken hwider hf) (fun _ => id)
      fun op hop => allows_of_cut rfl (hfits op hop)).under
        .forget (fun _ _ => Terms.keeps_forget rfl _) trivial trivial
    obtain ⟨ops, after, hdrain, hencode, hedits, hall⟩ := encodes_pair hpos ho ht rfl hforget
    have hforgotten := (Queue.carries_forgotten
      (differ.joined (.ofSource (.replacing orig target)))).drain
    rw [hdrain] at hforgotten
    exact ⟨_, ops, after, rfl, hdrain, hencode, hedits, fun op hop => (hall op hop).1, by simp [hk],
      fun _ => hforgotten (List.forall_mem_nil _)⟩

theorem exists_script (differ : Differ) (hv : differ.config.validate = .ok ())
    (hc : differ.config.chunkSize < 2 ^ 30) {orig target : Bytes} (ho : orig.length < 2 ^ 31)
    (ht : target.length < 2 ^ 31) :
    ∃ ops, differ.compute orig target = .ok (Script.encode ops) ∧
      differ.config.Makes ops orig target := by
  obtain ⟨queue, ops, after, hdiff, -, hencode, hmakes⟩ := exists_drained differ hv hc ho ht
  exact ⟨ops, by rw [compute, hdiff]; exact hencode, hmakes⟩

end Differ

end BytePatch
