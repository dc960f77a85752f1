import BytePatch.Pipeline
import BytePatch.Proofs.Lattice.Comparison

/-! What a pipeline that can be built puts on a queue: nothing but the layers of its own stages,
each of them new. -/
namespace BytePatch

/-- Bound on the weight of all ops to come. -/
def Queue.rank (queue : Queue) : Nat := (Stack.feed Source.base queue.depth).rank queue.stack

theorem Work.Fresh.weight_eq {work : Work} (h : work.Fresh) : work.weight = 0 := by
  cases work with
  | pump pump =>
    cases h
    rfl
  | pool pool => simp [weight, Pool.weight, h.1]
  | _ => rfl

theorem Queue.rank_under {work : Work} (h : work.Fresh) (queue : Queue) :
    (queue.under work).rank = queue.rank := by
  have hnew : (Layer.new work).weight = 0 := (Nat.zero_add _).trans h.weight_eq
  calc (queue.under work).rank
      = (Layer.new work).weight + queue.rank := rfl
    _ = queue.rank := by rw [hnew, Nat.zero_add]

theorem Queue.rank_poll_le (queue : Queue) : queue.poll.2.rank ≤ queue.rank :=
  Nat.le_of_add_right_le ((Stack.feed Source.base queue.depth).rank_poll queue.stack)

namespace Pipeline

variable {pipeline : Pipeline} {crews : Nat → Crew}

theorem aligner_of_graph {aligner : Aligner} (h : pipeline.graph = .ok aligner) :
    pipeline.aligner = aligner := by
  rw [Pipeline.aligner, h]

theorem strategy_aligner (pipeline : Pipeline) :
    pipeline.aligner.strategy = pipeline.method.strategyWith pipeline.divider := by
  unfold Pipeline.aligner
  split
  · next aligner h =>
    unfold graph Aligner.forChunk at h
    rcases hc : Aligner.capacityFor pipeline.chunk with fault | capacity <;> rw [hc] at h <;> cases h
    rfl
  · rfl

theorem graph_of_lt (h : pipeline.chunk + 1 < 2 ^ 32) :
    pipeline.graph = .ok pipeline.aligner ∧ pipeline.aligner =
      ⟨pipeline.method.strategyWith pipeline.divider, (pipeline.chunk + 1) * (pipeline.chunk + 1)⟩ := by
  have hgraph : pipeline.graph = _ := Aligner.forChunk_of_lt h pipeline.method pipeline.divider
  have haligner := aligner_of_graph hgraph
  exact ⟨haligner ▸ hgraph, haligner⟩

/-- The threads of every pool can be started. -/
def Started (crews : Nat → Crew) : Prop := ∀ n, ∃ early, crews n = .ok early

/-- The layers that stages of the pipeline put on a queue, whoever works for them and whatever they
find to rewind. -/
inductive Lays (pipeline : Pipeline) : Stage → Work → Prop
  | coalesce : Lays pipeline .coalesce .coalesce
  | compact : Lays pipeline .compact .compact
  | graph : pipeline.graph = .ok pipeline.aligner → Lays pipeline .graph (.align pipeline.aligner)
  | oneWay : Lays pipeline .oneWay .forget
  | parallelGraph (early : Nat → Bool) : 0 < pipeline.workers →
    Lays pipeline .parallelGraph (.pool (.new pipeline.aligner pipeline.workers early))
  | pump : Lays pipeline .pump (.pump .new)
  | rewind (orig : Reader) : Lays pipeline .rewind (.rewind orig)
  | unchunk : Lays pipeline .unchunk .unchunk
  | undo : Lays pipeline .undo .undo
  | chunk : Lays pipeline .chunk (.chunk pipeline.chunk)

theorem lays_of_work {crew : Crew} {orig? left? : Option Reader} {stage : Stage} {work : Work}
    (h : pipeline.work crew orig? stage = .ok (some work, left?)) : pipeline.Lays stage work := by
  cases stage with
  | raw => cases h
  | graph =>
    simp only [Pipeline.work] at h
    split at h
    · cases h
    · next aligner hgraph =>
      cases h
      obtain rfl := aligner_of_graph hgraph
      exact .graph hgraph
  | parallelGraph =>
    by_cases hworkers : pipeline.workers = 0
    · simp [Pipeline.work, Pipeline.pool, hworkers] at h
    · cases crew with
      | error cause => simp [Pipeline.work, Pipeline.pool, hworkers] at h
      | ok early =>
        simp only [Pipeline.work, Pipeline.pool, hworkers, if_false] at h
        cases h
        exact .parallelGraph early (Nat.pos_of_ne_zero hworkers)
  | rewind =>
    cases orig? with
    | none => cases h
    | some orig =>
      cases h
      exact .rewind orig
  | _ =>
    cases h
    constructor

theorem Lays.fresh {stage : Stage} {work : Work} (h : pipeline.Lays stage work) : work.Fresh := by
  cases h with
  | parallelGraph early hworkers => exact ⟨rfl, rfl, rfl, hworkers⟩
  | pump => rfl
  | _ => trivial

theorem lays_of_works {orig? : Option Reader} {stages : List Stage} {works : List Work}
    (h : pipeline.works crews orig? stages = .ok works) {work : Work} (hm : work ∈ works) :
    ∃ stage ∈ stages, pipeline.Lays stage work := by
  induction stages generalizing crews orig? works with
  | nil =>
    cases h
    cases hm
  | cons stage stages ih =>
    simp only [Pipeline.works] at h
    rcases hw : pipeline.work (crews 0) orig? stage with fault | ⟨work?, left?⟩
    · simp [hw] at h
    rcases hws : pipeline.works (fun n => crews (n + 1)) left? stages with fault | rest
    · simp [hw, hws, Functor.map, Except.map] at h
    simp only [hw, hws, Functor.map, Except.map] at h
    cases h
    rcases List.mem_append.1 hm with hm | hm
    · obtain rfl : work? = some work := Option.mem_toList.1 hm
      exact ⟨stage, List.mem_cons_self, lays_of_work hw⟩
    · obtain ⟨stage', hs', hlays⟩ := ih hws hm
      exact ⟨stage', List.mem_cons_of_mem _ hs', hlays⟩

/-- What is built are layers of the stages, one on top of the other. -/
theorem exists_works_of_build {queue built : Queue} (h : pipeline.build crews queue = .ok built) :
    ∃ works : List Work, built = works.foldl (fun queue work => queue.under work) queue ∧
      ∀ work ∈ works, ∃ stage ∈ pipeline.stages, pipeline.Lays stage work := by
  unfold build at h
  by_cases hchunk : pipeline.chunk = 0
  · simp [hchunk] at h
  rcases hws : pipeline.works crews pipeline.orig? pipeline.stages with fault | works
  · simp [hchunk, hws, Functor.map, Except.map] at h
  simp only [hchunk, hws, Functor.map, Except.map] at h
  cases h
  exact ⟨works, rfl, fun work hm => lays_of_works hws hm⟩

theorem rank_build {source : Source} {queue : Queue}
    (h : pipeline.build crews (.ofSource source) = .ok queue) : queue.rank = source.rank := by
  obtain ⟨works, rfl, hlays⟩ := exists_works_of_build h
  have hfresh : ∀ work ∈ works, work.Fresh := by
    intro work hm
    obtain ⟨stage, -, hl⟩ := hlays work hm
    exact hl.fresh
  suffices hfoldl : ∀ queue : Queue,
      (works.foldl (fun queue work => queue.under work) queue).rank = queue.rank from hfoldl _
  clear hlays h
  induction works with
  | nil => exact fun _ => rfl
  | cons work works ih =>
    intro queue
    obtain ⟨hwork, hworks⟩ := List.forall_mem_cons.1 hfresh
    exact (ih hworks _).trans (queue.rank_under hwork)

end Pipeline

end BytePatch
