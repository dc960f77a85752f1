import BytePatch.Proofs.Lattice.Scripts
import BytePatch.Proofs.Pipeline.Saturation
import BytePatch.Proofs.Queue.Comparing

/-! Pipelines of stages that take no script back: in any order and number they keep what a script
makes of the string it was made for. -/
namespace BytePatch

/-- The stages that neither take ops back nor read the string again. -/
def Stage.Forward (stage : Stage) : Prop := stage ≠ .undo ∧ stage ≠ .rewind

instance (stage : Stage) : Decidable stage.Forward :=
  inferInstanceAs (Decidable (stage ≠ .undo ∧ stage ≠ .rewind))

/-- Of every pair that its layers come to when the queue is drained, and that there is room for, a
path can be told from none: its length or its price is below the largest 32-bit number. -/
def Queue.Counts (queue : Queue) : Prop := queue.Pairs Aligner.Counts

namespace Pipeline

/-- What is asked of scripts that go forward: no op is empty. -/
def terms : Terms := ⟨none, true⟩

theorem fits_of_valid {ops : Script} (h : ∀ op ∈ ops, op.Valid) : terms.Fits ops :=
  fun op hop => ⟨(h op hop).1, nofun, nofun⟩

/-- A pair that does not fit is refused. -/
def Refused (fault : Fault) : Prop :=
  ∃ required capacity, fault = .capacityExceeded required capacity

/-- What may come of draining what is made of a script: a refusal, or a script of valid ops that
remembers rightly again and that uses up and writes just what the first one does. -/
def Preserves (ops : Script) (orig : Bytes) : Except Fault Unit × List Op × Queue → Prop
  | (.error fault, _, _) => Refused fault
  | (.ok (), out, _) => (∀ op ∈ out, op.Valid) ∧ Script.Faithful out orig ∧
    Script.play out orig = ops.play orig

private theorem refused_of_align {aligner : Aligner} {orig target : Bytes} {fault : Fault}
    (h : aligner.align orig target = .error fault) : Refused fault := by
  unfold Aligner.align Aligner.checkCapacity at h
  split at h
  · next hc =>
    split at hc <;> cases hc
    cases h
    exact ⟨_, _, rfl⟩
  · cases h

theorem within_of_lays {pipeline : Pipeline} {stage : Stage} (hs : stage.Forward) {work : Work}
    (hl : pipeline.Lays stage work) : work.Within terms.refinement Refused := by
  have aligner (aligner : Aligner) : aligner.Within terms.refinement Refused :=
    Aligner.within fun _ _ => refused_of_align
  cases hl with
  | coalesce => exact fun _ _ _ _ => Terms.keeps_merge rfl
  | compact => exact fun _ _ _ _ => Terms.keeps_combine rfl
  | graph => exact aligner _
  | oneWay => exact fun _ _ => Terms.keeps_forget rfl _
  | parallelGraph => exact aligner _
  | pump => trivial
  | rewind => exact absurd rfl hs.2
  | unchunk => exact fun _ _ hr _ => Terms.keeps_regroup rfl hr
  | undo => exact absurd rfl hs.1
  | chunk => exact ⟨fun _ _ => Terms.keeps_pieces _ _, fun _ _ hr _ => Terms.keeps_interleave _ hr⟩

private theorem exists_works {pipeline : Pipeline} (hchunk : pipeline.chunk + 1 < 2 ^ 32)
    (hworkers : 1 ≤ pipeline.workers) {crews : Nat → Crew} (hcrews : Started crews)
    (orig? : Option Reader) (stages : List Stage) (hs : ∀ stage ∈ stages, stage.Forward) :
    ∃ works, pipeline.works crews orig? stages = .ok works := by
  induction stages generalizing crews with
  | nil => exact ⟨[], rfl⟩
  | cons stage stages ih =>
    obtain ⟨works, hws⟩ : ∃ works, pipeline.works (fun n => crews (n + 1)) orig? stages = .ok works :=
      ih (fun n => hcrews (n + 1)) fun stage hm => hs stage (List.mem_cons_of_mem _ hm)
    have hwork : ∃ work?, pipeline.work (crews 0) orig? stage = .ok (work?, orig?) := by
      cases stage with
      | rewind => exact absurd rfl (hs .rewind List.mem_cons_self).2
      | graph => exact ⟨_, by simp [work, (graph_of_lt hchunk).1]; rfl⟩
      | parallelGraph =>
        obtain ⟨early, hearly⟩ := hcrews 0
        exact ⟨_, by simp [work, pool, hearly, show pipeline.workers ≠ 0 by omega]; rfl⟩
      | _ => exact ⟨_, rfl⟩
    obtain ⟨work?, hw⟩ := hwork
    exact ⟨work?.toList ++ works, by simp [Pipeline.works, hw, hws, Functor.map, Except.map]⟩

theorem exists_build {pipeline : Pipeline} (hstages : ∀ stage ∈ pipeline.stages, stage.Forward)
    (hchunk : 1 ≤ pipeline.chunk) (hcount : pipeline.chunk + 1 < 2 ^ 32)
    (hworkers : 1 ≤ pipeline.workers) {crews : Nat → Crew} (hcrews : Started crews) (queue : Queue) :
    ∃ built, pipeline.build crews queue = .ok built := by
  obtain ⟨works, hworks⟩ := exists_works hcount hworkers hcrews pipeline.orig? pipeline.stages hstages
  rw [build, if_neg (Nat.pos_iff_ne_zero.1 hchunk), hworks]
  exact ⟨_, rfl⟩

end Pipeline

namespace Queue

/-- What holds of all pairs does so already below the layers put on top. -/
theorem Pairs.of_foldl {P : Aligner → Bytes → Bytes → Prop} {queue : Queue} {works : List Work}
    (h : (works.foldl (fun queue work => queue.under work) queue).Pairs P) : queue.Pairs P := by
  induction works generalizing queue with
  | nil => exact h
  | cons work works ih =>
    have hunder : (queue.under work).Pairs P := ih h
    exact hunder.2

/-- Layers that keep scripts, put on a queue one after another. -/
theorem Carries.foldl {R : Refinement} {Fails : Fault → Prop} {queue : Queue} {ops : Script}
    (h : queue.Carries R Fails ops) {works : List Work}
    (hw : ∀ work ∈ works, work.Within R Fails ∧ work.Fresh)
    (hkeeps : (works.foldl (fun queue work => queue.under work) queue).Pairs (Aligner.Keeps R)) :
    (works.foldl (fun queue work => queue.under work) queue).Carries R Fails ops := by
  induction works generalizing queue with
  | nil => exact h
  | cons work works ih =>
    obtain ⟨hwithin, hfresh⟩ := hw work List.mem_cons_self
    have hlater : (works.foldl (fun queue work => queue.under work) (queue.under work)).Pairs
        (Aligner.Keeps R) := hkeeps
    have hunder := Pairs.of_foldl hlater
    exact ih (h.under work hwithin hfresh hunder.1)
      (fun work hm => hw work (List.mem_cons_of_mem _ hm)) hkeeps

theorem Counts.keeps {queue : Queue} (h : queue.Counts) (terms : Terms) :
    queue.Pairs (Aligner.Keeps terms.refinement) :=
  h.imp Aligner.keeps_of_counts

/-- The paths of all pairs can be told from none while fewer than 2 ^ 31 bytes are held. -/
theorem counts_of_short {pipeline : Pipeline} {queue : Queue}
    (haligners : ∀ aligner ∈ Stack.aligners queue.depth queue.stack, aligner = pipeline.aligner)
    (hshort : queue.rank < 2 ^ 31) : queue.Counts := by
  refine Stack.pairs_of_aligners fun aligner ha orig target htarget _ => ?_
  rw [haligners aligner ha, Pipeline.strategy_aligner]
  exact pipeline.method.counts_of_short _ orig (Nat.lt_of_le_of_lt htarget hshort)

end Queue

namespace Pipeline

private theorem Lays.aligner_eq {pipeline : Pipeline} {stage : Stage} {work : Work}
    (h : pipeline.Lays stage work) {aligner : Aligner} (ha : aligner ∈ work.aligner?) :
    aligner = pipeline.aligner := by
  cases h with
  | graph | parallelGraph =>
    cases ha
    rfl
  | _ => cases ha

/-- Nothing is compared but in the pipeline's own way. -/
theorem aligners_of_build {pipeline : Pipeline} {crews : Nat → Crew} {source : Source} {queue : Queue}
    (h : pipeline.build crews (.ofSource source) = .ok queue) :
    ∀ aligner ∈ Stack.aligners queue.depth queue.stack, aligner = pipeline.aligner := by
  obtain ⟨works, rfl, hlays⟩ := exists_works_of_build h
  suffices hfoldl : ∀ queue : Queue,
      (∀ aligner ∈ Stack.aligners queue.depth queue.stack, aligner = pipeline.aligner) →
      ∀ aligner ∈ Stack.aligners _
        (works.foldl (fun queue work => queue.under work) queue).stack,
        aligner = pipeline.aligner from hfoldl _ nofun
  clear h
  induction works with
  | nil => exact fun _ => id
  | cons work works ih =>
    intro queue hbelow
    obtain ⟨stage, -, hl⟩ := hlays work List.mem_cons_self
    refine ih (fun work hm => hlays work (List.mem_cons_of_mem _ hm)) (queue.under work) ?_
    exact List.forall_mem_append.2 ⟨fun aligner ha => hl.aligner_eq (Option.mem_toList.1 ha), hbelow⟩

/-- Where fewer than 2 ^ 31 bytes go through a pipeline, the paths of all pairs can be told from
none. -/
theorem counts_of_build {pipeline : Pipeline} {crews : Nat → Crew} {source : Source} {queue : Queue}
    (h : pipeline.build crews (.ofSource source) = .ok queue) (hshort : source.rank < 2 ^ 31) :
    queue.Counts :=
  Queue.counts_of_short (aligners_of_build h) ((rank_build h).trans_lt hshort)

/-- What comes out plays as the script that went in, on the string the latter was made for, and
remembers rightly, whatever the stages and the schedules of the pools are. The only failure is that
of a pair too large for a chunk. Nothing is claimed if a stage comes to a pair that fits and whose
paths cannot be told from none. -/
theorem drain_plays {pipeline : Pipeline} {crews : Nat → Crew} {ops : Script} {orig : Bytes}
    (hstages : ∀ stage ∈ pipeline.stages, stage.Forward) (hchunk : 1 ≤ pipeline.chunk)
    (hcount : pipeline.chunk + 1 < 2 ^ 32) (hworkers : 1 ≤ pipeline.workers)
    (hcrews : Started crews) (hvalid : ∀ op ∈ ops, op.Valid)
    (hruns : ops.totalRun < UInt64.size) (hfaithful : ops.Faithful orig) :
    ∃ queue, pipeline.build crews (.ofSource (.ofList ops)) = .ok queue ∧
      (queue.Counts → Preserves ops orig queue.drain) := by
  obtain ⟨queue, hbuild⟩ :=
    exists_build hstages hchunk hcount hworkers hcrews (.ofSource (.ofList ops))
  refine ⟨queue, hbuild, fun hcounts => ?_⟩
  obtain ⟨works, rfl, hlays⟩ := exists_works_of_build hbuild
  have hworks : ∀ work ∈ works, work.Within terms.refinement Refused ∧ work.Fresh := by
    intro work hm
    obtain ⟨stage, hs, hl⟩ := hlays work hm
    exact ⟨within_of_lays (hstages stage hs) hl, hl.fresh⟩
  have hfits := fits_of_valid hvalid
  have hcarries : Queue.Carries terms.refinement Refused (.ofSource (.ofList ops)) ops :=
    (Queue.carries_list ops).weaken _ (fun _ _ heq => heq ▸ Terms.Keeps.refl _) nofun hfits
  have hdrain := (hcarries.foldl hworks (hcounts.keeps terms)).drain
  generalize works.foldl (fun (queue : Queue) work => queue.under work) (.ofSource (.ofList ops)) =
    queue at hdrain ⊢
  generalize queue.drain = result at hdrain ⊢
  obtain ⟨fault | _, out, after⟩ := result
  · exact hdrain
  have hkeeps : terms.Keeps ops out := hdrain
  obtain ⟨src, dst, rest, rfl, hedits⟩ := hfaithful.exists_edits
  have hout := hkeeps.edits hedits
  refine ⟨fun op hop => ⟨(hkeeps.allows hfits op hop).pos, ?_⟩, hout.faithful rest, ?_⟩
  · have hrun := hout.run_le hop
    have hlen := hedits.length_le
    exact Nat.lt_of_le_of_lt (Nat.le_trans hrun (Nat.max_le.2 hlen)) hruns
  · rw [hout.play, hedits.play]

private abbrev cutting : Pipeline :=
  ⟨[.chunk, .graph, .coalesce, .oneWay], 2, .inertial, 1, none, .myers⟩

private abbrev replaced : Script := [.copy 1, .delete [2, 3, 4], .insert [3, 9]]

/-- Pairs that are cut and compared, with the deletes of what comes out forgotten. -/
theorem drain_plays_cut : ∃ queue,
    cutting.build (fun _ => .ok Pool.lazy) (.ofSource (.ofList replaced)) = .ok queue ∧
      queue.Counts ∧ Preserves replaced [1, 2, 3, 4, 5] queue.drain := by
  have hfaithful : Script.Faithful replaced [1, 2, 3, 4, 5] :=
    ⟨⟨_, rfl⟩, by simp [Script.Remembers, Op.reach]⟩
  have hstarted : Started fun _ => .ok Pool.lazy := fun _ => ⟨_, rfl⟩
  obtain ⟨queue, hbuild, hplays⟩ : ∃ queue,
      cutting.build (fun _ => .ok Pool.lazy) (.ofSource (.ofList replaced)) = .ok queue ∧
        (queue.Counts → Preserves replaced [1, 2, 3, 4, 5] queue.drain) :=
    drain_plays (by decide) (by decide) (by decide) (by decide) hstarted (by decide) (by decide)
      hfaithful
  have hcounts := counts_of_build hbuild (by decide)
  exact ⟨queue, hbuild, hcounts, hplays hcounts⟩

/-- Where a pair comes to the largest number there is, what it inserts is lost. -/
theorem not_preserves_of_lost {pipeline : Pipeline} (crews : Nat → Crew) {orig target : Bytes}
    (hstages : pipeline.stages = [.graph]) (hchunk : 1 ≤ pipeline.chunk)
    (hcount : pipeline.chunk + 1 < 2 ^ 32) (hlost : Lost pipeline.method orig target)
    (hroom : pipeline.aligner.HasRoom orig target) :
    ∃ queue, pipeline.build crews (.ofSource (.ofList [.delete orig, .insert target])) = .ok queue ∧
      ¬ Preserves [.delete orig, .insert target] orig queue.drain := by
  obtain ⟨rest, hlostplay⟩ := play_script_of_lost pipeline.divider hlost
  rw [← strategy_aligner] at hlostplay
  refine ⟨_, build_graph crews hstages hchunk hcount _, ?_⟩
  obtain ⟨after, hdrain⟩ := (Align.runs_pair (Aligner.align_of_fits hroom)).drain
  rw [hdrain]
  rintro ⟨-, -, hplay⟩
  have hwrites : Script.play [.delete orig, .insert target] orig = .ok (target, []) := by
    simpa using (Script.edits_pair orig target).play []
  rw [hlostplay, hwrites] at hplay
  cases hplay
  exact target_ne_nil_of_lost hlost rfl

/-- All that should be inserted is missing from what comes out. -/
theorem not_preserves_flooding : ∃ queue,
    graphing.build (fun _ => .ok Pool.lazy) (.ofSource (.ofList flooding)) = .ok queue ∧
      (∀ op ∈ flooding, op.Valid) ∧ Script.totalRun flooding < UInt64.size ∧
      Script.Faithful flooding [0] ∧ ¬ Preserves flooding [0] queue.drain := by
  obtain ⟨queue, hbuild, hnot⟩ : ∃ queue,
      graphing.build (fun _ => .ok Pool.lazy) (.ofSource (.ofList flooding)) = .ok queue ∧
        ¬ Preserves flooding [0] queue.drain :=
    not_preserves_of_lost _ rfl (by decide) (by decide) lost_flooding hasRoom_flooding
  refine ⟨queue, hbuild, valid_flooding, ?_, (Script.edits_pair [0] _).faithful [], hnot⟩
  rw [Script.totalRun, sumOf_cons, sumOf_cons, Op.run, Op.run, List.length_replicate]
  decide

end Pipeline

end BytePatch
