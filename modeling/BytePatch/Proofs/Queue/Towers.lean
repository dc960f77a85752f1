import BytePatch.Proofs.Pipeline.Building
import BytePatch.Proofs.Queue.Records

/-! Pipelines put on any base, and what may be called on the stack they make. On a source of ops such
a stack is the queue that a pipeline builds. -/
namespace BytePatch

open Script (Tames)
open Feed (given Clean Dry)

variable {σ τ : Type}

/-- Layers on top of any base. -/
structure Tower (σ : Type) where
  depth : Nat
  stack : Stack σ depth

namespace Tower

/-- The tower with one more layer on top. -/
def under (work : Work) (tower : Tower σ) : Tower σ :=
  ⟨tower.depth + 1, (Layer.new work, tower.stack)⟩

/-- The layers of a list, the first one lowest. -/
def of (base : σ) (works : List Work) : Tower σ :=
  works.foldl (fun tower work => tower.under work) ⟨0, base⟩

/-- A tower above a source. -/
def queue (tower : Tower Source) : Queue := ⟨tower.depth, tower.stack⟩

private theorem queue_foldl (works : List Work) (tower : Tower Source) :
    (works.foldl (fun tower work => tower.under work) tower).queue =
      works.foldl (fun queue work => queue.under work) tower.queue := by
  induction works generalizing tower with
  | nil => rfl
  | cons work works ih => exact ih (tower.under work)

theorem exists_serial {works : List Work} {tower : Tower σ} {aligner : Aligner}
    (h : aligner ∈ Stack.serials _ (works.foldl (fun tower work => tower.under work) tower).stack) :
    aligner ∈ Stack.serials _ tower.stack ∨ ∃ work ∈ works, aligner ∈ work.serial? := by
  induction works generalizing tower with
  | nil => exact .inl h
  | cons work works ih =>
    obtain hm | ⟨work', hw, ha⟩ := ih h
    · obtain hm | hm := List.mem_append.1 hm
      · exact .inr ⟨work, List.mem_cons_self, Option.mem_toList.1 hm⟩
      · exact .inl hm
    · exact .inr ⟨work', List.mem_cons_of_mem _ hw, ha⟩

end Tower

namespace Pipeline

/-- Put every stage on a base. -/
def raise (pipeline : Pipeline) (crews : Nat → Crew) (base : σ) : Except Fault (Tower σ) :=
  if pipeline.chunk = 0 then .error (.config .zeroChunk)
  else Tower.of base <$> pipeline.works crews pipeline.orig? pipeline.stages

theorem build_ofSource (pipeline : Pipeline) (crews : Nat → Crew) (source : Source) :
    pipeline.build crews (.ofSource source) = Tower.queue <$> pipeline.raise crews source := by
  unfold build raise
  split
  · rfl
  · rcases pipeline.works crews pipeline.orig? pipeline.stages with fault | works
    · rfl
    · exact congrArg Except.ok (Tower.queue_foldl works ⟨0, source⟩).symm

theorem exists_works_of_raise {pipeline : Pipeline} {crews : Nat → Crew} {base : σ}
    {tower : Tower σ} (h : pipeline.raise crews base = .ok tower) :
    0 < pipeline.chunk ∧ ∃ works, tower = Tower.of base works ∧
      ∀ work ∈ works, ∃ stage ∈ pipeline.stages, pipeline.Lays stage work := by
  unfold raise at h
  by_cases hchunk : pipeline.chunk = 0
  · simp [hchunk] at h
  rcases hws : pipeline.works crews pipeline.orig? pipeline.stages with fault | works
  · simp [hchunk, hws, Functor.map, Except.map] at h
  simp only [hchunk, hws, Functor.map, Except.map] at h
  cases h
  exact ⟨Nat.pos_of_ne_zero hchunk, works, rfl, fun work hm => lays_of_works hws hm⟩

end Pipeline

namespace Recorded

theorem answers_blank {depth : Nat} (s : Stack σ depth) :
    answers depth (blank depth s) = [] := by
  cases depth <;> rfl

private theorem serves_of_fresh {work : Work} (h : work.Fresh)
    (hsize : ∀ size, work = .chunk size → 0 < size) : work.Serves [] := by
  cases work with
  | coalesce => exact Nat.zero_le _
  | chunk size => exact hsize size rfl
  | pool pool => exact ⟨h.2.2.2, h.2.2.1, fun _ => rfl⟩
  | _ => first | rfl | trivial

private theorem not_shut_of_fresh {work : Work} (h : work.Fresh) : ¬ work.Shut := by
  cases work with
  | pump pump =>
    cases h
    exact nofun
  | pool pool =>
    intro hs
    have hs : pool.isOpen = false := hs
    simp [h.2.1] at hs
  | _ => exact id

private theorem sound_foldl {base : Feed σ} {start : σ} {works : List Work}
    (hw : ∀ work ∈ works, work.Fresh ∧ ∀ size, work = .chunk size → 0 < size) {tower : Tower σ}
    (h : Sound base start tower.depth (blank tower.depth tower.stack)) :
    Sound base start (works.foldl (fun tower work => tower.under work) tower).depth
      (blank _ (works.foldl (fun tower work => tower.under work) tower).stack) := by
  induction works generalizing tower with
  | nil => exact h
  | cons work works ih =>
    obtain ⟨hfresh, hsize⟩ := hw work List.mem_cons_self
    have htames : Tames (given (answers _ (blank _ tower.stack))) (Layer.new work).script := by
      have hscript : (Layer.new work).script = [] := by
        simp [Layer.script, Layer.new, Buffers.empty, hfresh.held]
      rw [answers_blank, hscript]
      exact Tames.refl _
    have hsettles : Entry.Settles [] (answers _ (blank _ tower.stack)) [] := by
      rw [answers_blank]
      exact .refl _
    have hnew : Sound base start (tower.under work).depth (blank _ (tower.under work).stack) :=
      ⟨h, serves_of_fresh hfresh hsize, htames, fun _ => hsettles,
        fun hs => absurd hs (not_shut_of_fresh hfresh)⟩
    exact ih (fun work hm => hw work (List.mem_cons_of_mem _ hm)) hnew

theorem sound_blank (base : Feed σ) (start : σ) {works : List Work}
    (hw : ∀ work ∈ works, work.Fresh ∧ ∀ size, work = .chunk size → 0 < size) :
    Sound base start (Tower.of start works).depth (blank _ (Tower.of start works).stack) :=
  sound_foldl hw .nil

end Recorded

/-- What empties a queue: it is drained, with or without the ops being encoded, or each op is
replayed on a stream as soon as it comes. -/
inductive Call where
  | drain
  | encode
  | apply (orig : Reader) (sink : Sink)

namespace Feed

/-- Make a call, to see whether it succeeds and what it leaves. -/
def call (feed : Feed σ) (s : σ) : Call → Except Fault Unit × σ
  | .drain | .encode => ((feed.drain s).1, (feed.drain s).2.2)
  | .apply orig sink =>
    match feed.consume Queue.replayStep ⟨orig, sink⟩ s with
    | (.dry _, s) => (.ok (), s)
    | (.failed fault _, s) => (.error fault, s)
    | (.done (fault, _), s) => (.error fault, s)

theorem call_drain {feed : Feed σ} {s s' : σ} {answer : Except Fault Unit} {ops : List Op}
    (h : feed.drain s = (answer, ops, s')) : feed.call s .drain = (answer, s') := by
  simp [call, h]

theorem Alike.call {f : σ → τ} {feed : Feed σ} {feed' : Feed τ} (h : Alike f feed feed') (s : σ)
    (call : Call) : feed'.call (f s) call = viewed f (feed.call s call) := by
  cases call with
  | drain => simp [Feed.call, h.drain, viewed]
  | encode => simp [Feed.call, h.drain, viewed]
  | apply orig sink =>
    simp only [Feed.call, h.consume]
    rcases feed.consume Queue.replayStep ⟨orig, sink⟩ s with ⟨_ | _ | _, s'⟩ <;> rfl

/-- A call that succeeds has polled until there was nothing more, and no poll failed. -/
theorem polls_call {feed : Feed σ} {s s' : σ} {call : Call} (h : feed.call s call = (.ok (), s')) :
    ∃ answers, feed.Polls s answers s' ∧ Clean answers ∧ Dry answers := by
  have drained (hd : ((feed.drain s).1, (feed.drain s).2.2) = (.ok (), s')) :
      ∃ answers, feed.Polls s answers s' ∧ Clean answers ∧ Dry answers := by
    obtain ⟨answers, hpolls, -, hend⟩ := feed.polls_drain s
    obtain ⟨hok, rfl⟩ := Prod.ext_iff.1 hd
    exact ⟨answers, hpolls, hend hok⟩
  cases call with
  | drain => exact drained h
  | encode => exact drained h
  | apply orig sink =>
    obtain ⟨answers, hpolls, hend⟩ := feed.polls_consume (.every fun _ => True) Queue.replayStep
      (fun _ => []) (fun _ => []) (fun _ => True) (fun _ => True)
      (fun replay op _ => by
        cases Queue.replayStep replay op <;> exact ⟨trivial, fun _ _ _ => trivial⟩)
      (a := ⟨orig, sink⟩) s trivial
    simp only [Feed.call] at h
    generalize feed.consume Queue.replayStep ⟨orig, sink⟩ s = result at h hpolls hend
    obtain ⟨outcome, last⟩ := result
    cases outcome with
    | done result => cases h
    | failed fault replay => cases h
    | dry replay =>
      cases h
      exact ⟨answers, hpolls, hend.1, hend.2.1⟩

end Feed

/-- Polls of a stack that was new, and then a call that succeeds, with everything written down. -/
theorem Recorded.exists_call {base : Base σ} {depth : Nat} {start stack after : Stack σ depth}
    {earlier : List Answer} (hearlier : (Stack.feed base depth).Polls start earlier stack)
    {call : Call} (hcall : (Stack.feed base depth).call stack call = (.ok (), after)) :
    ∃ before record : Recorded σ depth,
      (Recorded.feed base.toFeed depth).Polls (.blank _ start) earlier before ∧
      before.stack = stack ∧ (Recorded.feed base.toFeed depth).call before call = (.ok (), record) ∧
      record.stack = after := by
  have halike := alike_stack base depth
  rw [← stack_blank start] at hearlier
  obtain ⟨before, hbefore, rfl⟩ := halike.exists_polls hearlier
  rw [halike.call] at hcall
  rcases hr : (Recorded.feed base.toFeed depth).call before call with ⟨answer, record⟩
  rw [hr] at hcall
  cases hcall
  exact ⟨before, record, hbefore, rfl, hr, rfl⟩

end BytePatch
