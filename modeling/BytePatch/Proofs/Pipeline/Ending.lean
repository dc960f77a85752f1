import BytePatch.Proofs.Pipeline.Circulation
import BytePatch.Proofs.Pipeline.Completion
import BytePatch.Proofs.Queue.Counts
import BytePatch.Proofs.Queue.Rest
import BytePatch.Proofs.Threads.Progress
import BytePatch.Proofs.Threads.Service

/-! Draining comes to an end, and to a final one. However a queue has been used before, a bound on the
polls of every level is known from what its source held at first. If a drain succeeds then there is
nothing more, however often the queue is polled. -/
namespace BytePatch

open Feed (given Dry)

namespace Queue

/-- What becomes of a queue by polls and refills, whether or not they fail, and when someone cancels
what it does. -/
inductive Handled (start : Queue) : Queue → Prop
  | start : Handled start start
  | poll {queue} : Handled start queue → Handled start queue.poll.2
  | shift {queue} : Handled start queue → Handled start queue.shift.2
  | cancel {queue} : Handled start queue → Handled start queue.cancel

theorem rank_shift_le (queue : Queue) : queue.shift.2.rank ≤ queue.rank := by
  obtain ⟨_ | depth, stack⟩ := queue
  · exact Source.rank_shift_le stack
  · exact Layer.weight_shift_le (Stack.feed Source.base depth) stack.1 stack.2

private theorem rank_stack_cancel {depth : Nat} (stack : Stack Source depth) :
    (Stack.feed Source.base depth).rank (Stack.cancel depth stack) =
      (Stack.feed Source.base depth).rank stack := by
  induction depth with
  | zero => rfl
  | succ depth ih =>
    obtain ⟨⟨buffers, work⟩, below⟩ := stack
    cases work <;> exact congrArg (Layer.weight _ + ·) (ih below)

theorem rank_cancel (queue : Queue) : queue.cancel.rank = queue.rank :=
  rank_stack_cancel queue.stack

theorem Handled.rank_le {start queue : Queue} (h : start.Handled queue) :
    queue.rank ≤ start.rank := by
  induction h with
  | start => exact Nat.le_refl _
  | poll _ ih => exact Nat.le_trans (rank_poll_le _) ih
  | shift _ ih => exact Nat.le_trans (rank_shift_le _) ih
  | cancel _ ih => exact (rank_cancel _).trans_le ih

theorem rank_blank (queue : Queue) :
    (Recorded.feed Source.feed queue.depth).rank (.blank _ queue.stack) = queue.rank := by
  have h := Recorded.rank_stack Source.base (.blank _ queue.stack)
  rw [Recorded.stack_blank] at h
  exact h.symm

end Queue

namespace Pipeline

theorem exists_raise_of_build {pipeline : Pipeline} {crews : Nat → Crew} {source : Source}
    {queue : Queue} (h : pipeline.build crews (.ofSource source) = .ok queue) :
    ∃ tower, pipeline.raise crews source = .ok tower ∧ queue = tower.queue := by
  rw [build_ofSource] at h
  rcases hraise : pipeline.raise crews source with fault | tower <;> rw [hraise] at h <;> cases h
  exact ⟨tower, rfl, rfl⟩

/-- What can be relied on while a queue is emptied. -/
structure Ends (source : Source) (queue : Queue) : Prop where
  /-- Every refill ends, after so many polls of each level. -/
  shifts : ∀ q, queue.Handled q → ∃ answer record,
    Recorded.shift Source.feed Source.shift q.depth (.blank _ q.stack) = (answer, record) ∧
    q.shift = (answer, ⟨q.depth, record.stack⟩) ∧ record.PolledWithin (q.depth * source.rank + 1)
  /-- Every drain ends. -/
  drains : ∀ q, queue.Handled q → ∃ answer ops record,
    (Recorded.feed Source.feed q.depth).drain (.blank _ q.stack) = (answer, ops, record) ∧
    q.drain = (answer, ops, ⟨q.depth, record.stack⟩) ∧
    record.PolledWithin ((q.depth + 1) * source.rank + 1)
  /-- The threads of a pool on top do not take turns for ever, and none of them gets stuck before a
  refill is over. -/
  threads : ∀ q, queue.Handled q → ∀ offers aligner workers service, 0 < workers →
    Service.Reaches (Stack.feed Source.base q.depth) offers (.new aligner workers q.stack) service →
    Acc (fun later earlier => Threads.Step (Stack.feed Source.base q.depth) earlier later)
        service.threads ∧
      ((∀ answer, service.threads.control ≠ .returned answer) →
        ∃ t, Threads.Step (Stack.feed Source.base q.depth) service.threads t)
  /-- However the queue is polled, no level counts further than 64 bits. -/
  counted : ∀ polled record,
    (Recorded.feed Source.feed queue.depth).Polls (.blank _ queue.stack) polled record →
    record.Counted
  /-- Once a drain has succeeded there is nothing more to poll for, if no pair was lost. -/
  final : ∀ earlier stack, (Stack.feed Source.base queue.depth).Polls queue.stack earlier stack →
    ∀ ops after, Queue.drain ⟨queue.depth, stack⟩ = (.ok (), ops, ⟨queue.depth, after⟩) →
    ∃ before record,
      (Recorded.feed Source.feed queue.depth).Polls (.blank _ queue.stack) earlier before ∧
      before.stack = stack ∧
      (Recorded.feed Source.feed queue.depth).drain before = (.ok (), ops, record) ∧
      record.stack = after ∧ (record.Spared → (Stack.feed Source.base queue.depth).Over after)

/-- A stack that has found nothing more has come to its end. -/
theorem over_of_dry {pipeline : Pipeline} {crews : Nat → Crew} {source : Source}
    {tower : Tower Source} (hsource : source.Genuine)
    (hraise : pipeline.raise crews source = .ok tower) {polled : List Answer}
    {record : Recorded Source tower.depth}
    (hpolls : (Recorded.feed Source.feed tower.depth).Polls (.blank _ tower.stack) polled record)
    (hdry : Dry polled) (hspared : record.Spared) :
    (Stack.feed Source.base tower.depth).Over record.stack := by
  have hcalled := (sound_raised Source.feed hraise).advances hpolls
  have hspent := hcalled.spent hdry (hsource.gives _ _ hcalled.sound.polls_base) hspared
  exact hcalled.sound.over (fun _ => Source.over_of_exhausted) hspent

/-- Whatever stages are put on a source of ops whose runs fit into 64 bits together. -/
theorem ends_of_build {pipeline : Pipeline} {crews : Nat → Crew} {source : Source} {queue : Queue}
    (hsource : source.Genuine) (hruns : Source.feed.GivesBelow UInt64.size source)
    (hbuild : pipeline.build crews (.ofSource source) = .ok queue) : Ends source queue where
  shifts q hq := by
    have hrank := q.rank_blank.trans_le (hq.rank_le.trans_eq (rank_build hbuild))
    have hshift := Recorded.shift_queue (.blank _ q.stack)
    rw [Recorded.stack_blank] at hshift
    refine ⟨_, _, rfl, hshift, (Recorded.polledWithin_shift _ _ _).mono ?_⟩
    exact Nat.succ_le_succ (Nat.mul_le_mul_left _ hrank)
  drains q hq := by
    have hrank := q.rank_blank.trans_le (hq.rank_le.trans_eq (rank_build hbuild))
    have hdrain := Recorded.drain_queue (.blank _ q.stack)
    rw [Recorded.stack_blank] at hdrain
    have hbriefly := (Recorded.feed Source.feed q.depth).briefly_drain (.blank _ q.stack)
    refine ⟨_, _, _, rfl, hdrain, (Recorded.polledWithin_briefly hbriefly).mono ?_⟩
    exact Nat.succ_le_succ (Nat.mul_le_mul_left _ hrank)
  threads q hq offers aligner workers service hw h := by
    have hsound := (Service.Reaches.guarded hw h).sound
    exact ⟨hsound.acc _, hsound.exists_step⟩
  counted polled record hpolls := by
    obtain ⟨tower, hraise, rfl⟩ := exists_raise_of_build hbuild
    have hsound := ((sound_raised Source.feed hraise).advances hpolls).sound
    exact hsound.counted (hsource.gives _ _ hsound.polls_base) (hruns _ _ hsound.polls_base)
  final earlier stack hearlier ops after hdrain := by
    obtain ⟨tower, hraise, rfl⟩ := exists_raise_of_build hbuild
    have halike := Recorded.alike_stack Source.base tower.depth
    rw [← Recorded.stack_blank tower.queue.stack] at hearlier
    obtain ⟨before, hbefore, rfl⟩ := halike.exists_polls hearlier
    obtain ⟨answers, hanswers, -, hend⟩ := (Recorded.feed Source.feed tower.depth).polls_drain before
    have hdrained := (Recorded.drain_queue before).symm.trans hdrain
    rcases hr : (Recorded.feed Source.feed tower.depth).drain before with ⟨answer, drained, record⟩
    rw [hr] at hdrained hanswers hend
    cases hdrained
    have hdry : Dry (earlier ++ answers) := (hend rfl).2.append earlier
    exact ⟨before, record, hbefore, rfl, hr, rfl,
      over_of_dry hsource hraise (hbefore.append hanswers) hdry⟩

section Decoded

private abbrev inverting : Pipeline := ⟨[.oneWay, .undo], 4, .inertial, 1, none, .myers⟩

private abbrev inverted (source : Source) : Queue := ⟨2, (.new .undo, (.new .forget, source))⟩

private theorem drain_inverted : (inverted (.decoding [2, 1, 7, 0])).drain =
    (.ok (), [.delete [7]], inverted ⟨.empty, .encoded .finished⟩) := by
  have hop : (Stack.feed Source.base 2).poll (inverted (.decoding [2, 1, 7, 0])).stack =
      (.ok (some (.delete [7])), (inverted (.decoding [0])).stack) := rfl
  have hnone : (Stack.feed Source.base 2).poll (inverted (.decoding [0])).stack =
      (.ok none, (inverted ⟨.empty, .encoded .finished⟩).stack) := rfl
  have hkept : Feed.keepAll [] (.delete [7]) = .more [.delete [7]] := rfl
  simp [Queue.drain, Feed.drain, Feed.consume_more hop hkept, Feed.consume_dry hnone]

/-- What has been drained of a decoder that has read the end marker is all. -/
theorem ends_of_build_decoded : ∃ queue after,
    inverting.build (fun _ => .ok Pool.lazy) (.ofSource (.decoding [2, 1, 7, 0])) = .ok queue ∧
    queue.drain = (.ok (), [.delete [7]], ⟨queue.depth, after⟩) ∧
    (Stack.feed Source.base queue.depth).Over after ∧ Ends (.decoding [2, 1, 7, 0]) queue := by
  have hbuild : inverting.build (fun _ => .ok Pool.lazy) (.ofSource (.decoding [2, 1, 7, 0])) =
      .ok (inverted (.decoding [2, 1, 7, 0])) := rfl
  have hdelivers : Source.feed.Delivers (.decoding [2, 1, 7, 0]) [.insert [7]] :=
    .cons rfl (Feed.delivers_nil rfl rfl)
  have hends := ends_of_build (.decoding _) (hdelivers.givesBelow (by decide)) hbuild
  obtain ⟨before, record, hbefore, -, hdrain, -, hover⟩ := hends.final [] _ .nil _ _ drain_inverted
  obtain ⟨answers, hanswers, -⟩ := (Recorded.feed Source.feed 2).polls_drain before
  rw [hdrain] at hanswers
  have hraise : inverting.raise (fun _ => .ok Pool.lazy) (.decoding [2, 1, 7, 0]) =
      .ok ⟨2, (inverted (.decoding [2, 1, 7, 0])).stack⟩ := rfl
  have hspared : record.Spared :=
    spared_of_short hraise (Source.Genuine.decoding _).gives (by simp) (hbefore.append hanswers)
  exact ⟨_, _, hbuild, drain_inverted, hover hspared, hends⟩

end Decoded

section Unbounded

private abbrev packing : Pipeline := ⟨[.coalesce], 4, .inertial, 1, none, .myers⟩

private abbrev overlong : Bytes := [3, 255, 255, 255, 255, 255, 255, 255, 255, 255, 1, 3, 1, 0]

private theorem runs_coalesce {feed : Feed Source} {s s' s'' : Source} {op : Op}
    (hop : feed.consume Coalesce.hold [] s = (.dry [op], s')) (hdry : feed.poll s' = (.ok none, s'')) :
    (Layer.feed feed).Runs (.new .coalesce, s) [op] none := by
  have hfirst : Layer.poll feed (.new .coalesce, s) = (.ok (some op), (.new .coalesce, s')) := by
    simp [Layer.poll, Layer.shift, Layer.new, Coalesce.shift, Buffers.empty, Coalesce.settle,
      Buffers.flush, hop]
  have hlast : Layer.poll feed (.new .coalesce, s') = (.ok none, (.new .coalesce, s'')) := by
    simp [Layer.poll, Layer.shift, Layer.new, Coalesce.shift, Buffers.empty, Coalesce.settle,
      Buffers.flush, Feed.consume_dry hdry]
  exact .op hfirst (.dry hlast)

private theorem drain_overlong : ∃ after,
    Queue.drain ⟨1, (.new .coalesce, .decoding overlong)⟩ = (.ok (), [.copy UInt64.size], after) := by
  have hfirst : Source.feed.poll (.decoding overlong) =
      (.ok (some (.copy (UInt64.size - 1))), .decoding [3, 1, 0]) := rfl
  have hsecond : Source.feed.poll (.decoding [3, 1, 0]) =
      (.ok (some (.copy 1)), .decoding [0]) := rfl
  have hnone : Source.feed.poll (.decoding [0]) =
      (.ok none, ⟨.empty, .encoded .finished⟩) := rfl
  have hheld : Coalesce.hold [] (.copy (UInt64.size - 1)) = .more [.copy (UInt64.size - 1)] := by
    simp [Coalesce.hold, Coalesce.settle]
  have hmerged : Coalesce.hold [.copy (UInt64.size - 1)] (.copy 1) = .more [.copy UInt64.size] := by
    simp [Coalesce.hold, Coalesce.settle, Op.merge?]
  have hconsumed : Source.feed.consume Coalesce.hold [] (.decoding overlong) =
      (.dry [.copy UInt64.size], ⟨.empty, .encoded .finished⟩) := by
    rw [Feed.consume_more hfirst hheld, Feed.consume_more hsecond hmerged, Feed.consume_dry hnone]
  have hruns : Queue.Runs ⟨1, (.new .coalesce, .decoding overlong)⟩ [.copy UInt64.size] none :=
    runs_coalesce hconsumed rfl
  exact hruns.drain

/-- Neither is a drain that succeeds the end where a pair is lost, nor does what comes out always fit
into 64 bits. -/
theorem not_ends_flooding :
    (∃ queue after, graphing.build (fun _ => .ok Pool.lazy)
        (.ofSource (.ofList (flooding ++ [.copy 1]))) = .ok queue ∧
      queue.drain = (.ok (), [], after) ∧ after.poll.1 = .ok (some (.copy 1))) ∧
    ∃ queue after run,
      packing.build (fun _ => .ok Pool.lazy) (.ofSource (.decoding overlong)) = .ok queue ∧
      queue.drain = (.ok (), [.copy run], after) ∧ UInt64.size ≤ run := by
  constructor
  · obtain ⟨after, hdrain, hpoll⟩ := Align.exists_drain_lost align_flooding (.copy 1)
    exact ⟨_, after, build_graphing _ _, hdrain, hpoll⟩
  · obtain ⟨after, hdrain⟩ := drain_overlong
    exact ⟨_, after, _, rfl, hdrain, Nat.le_refl _⟩

end Unbounded

end Pipeline

end BytePatch
