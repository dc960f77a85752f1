import BytePatch.Proofs.Pipeline.Completion
import BytePatch.Proofs.Queue.Endings
import BytePatch.Proofs.Threads.Cancellation

/-! A pool that was cancelled never looks as if it were at its end, and neither does a stack of layers
on top of it. -/
namespace BytePatch

open Feed (given Dry)

variable {σ : Type}

namespace Pipeline

/-- No stage that could report an end twice. -/
def Lasts (pipeline : Pipeline) : Prop :=
  ∀ stage ∈ pipeline.stages, stage ≠ .pump ∧ stage ≠ .parallelGraph

theorem Lasts.lays {pipeline : Pipeline} (h : pipeline.Lasts) {stage : Stage}
    (hm : stage ∈ pipeline.stages) {work : Work} (hl : pipeline.Lays stage work) : work.Lasts := by
  cases hl with
  | pump => exact absurd rfl (h _ hm).1
  | parallelGraph => exact absurd rfl (h _ hm).2
  | _ => trivial

theorem lasts_of_raise {pipeline : Pipeline} (h : pipeline.Lasts) {crews : Nat → Crew} {start : σ}
    {tower : Tower σ} (hraise : pipeline.raise crews start = .ok tower) :
    Stack.Lasts tower.depth tower.stack := by
  obtain ⟨-, works, rfl, hlays⟩ := exists_works_of_raise hraise
  refine Tower.lasts_of fun work hm => ?_
  obtain ⟨stage, hs, hl⟩ := hlays work hm
  exact h.lays hs hl

/-- Whatever failed before, and whatever the layers hold, a call that succeeds has been told by the
base that there is nothing more, unless a pair was lost. -/
theorem ended_of_call {base : Base σ} {start : σ} {pipeline : Pipeline} (hlasts : pipeline.Lasts)
    {crews : Nat → Crew} {tower : Tower σ} (hraise : pipeline.raise crews start = .ok tower)
    (hvalid : base.Gives Op.Valid start) {earlier : List Answer}
    {before record : Recorded σ tower.depth}
    (hbefore : (Recorded.feed base.toFeed tower.depth).Polls (.blank _ tower.stack) earlier before)
    {call : Call}
    (hcall : (Recorded.feed base.toFeed tower.depth).call before call = (.ok (), record))
    (hspared : record.Spared) :
    ∃ answers, base.Polls (Stack.bottom _ before.stack) answers (Stack.bottom _ record.stack) ∧
      Dry answers := by
  obtain ⟨polled, hpolled, -, hdry⟩ := Feed.polls_call hcall
  have hblank := sound_raised base.toFeed hraise
  have hlb : Stack.Lasts tower.depth (Recorded.blank _ tower.stack).stack := by
    rw [Recorded.stack_blank]
    exact lasts_of_raise hlasts hraise
  have hsound := (hblank.advances hbefore).sound
  have hdraws := hsound.draws (hblank.draws hlb hbefore).lasts hpolled
  have hpos : ∀ op ∈ given record.baseAnswers, 0 < op.run := fun op hop =>
    (hvalid _ _ (hsound.advances hpolled).sound.polls_base op hop).1
  obtain ⟨answers, hanswers, hend⟩ := hdraws.ended
  exact ⟨answers, hanswers, hend hdry hpos hspared⟩

end Pipeline

namespace Calling

/-- What can be relied on after a pool was cancelled, when no call was under way. -/
structure Final (base : Base σ) (c : Calling σ) : Prop where
  /-- The polls hand out what was ready then, and fail from there on, as each refill does; after the
  first failure every offer is refused. No poll finds nothing more. -/
  refuses : ∀ {c'}, Reaches base c c' → ∃ later, c'.calls = c.calls ++ later ∧
    Refuses c.threads.buffers.ready later ∧ .ok none ∉ polledIn later
  /-- Every call is over some time. -/
  goesOn : ∀ {c'}, Reaches base c c' → c'.current ≠ none → ∃ c'', Goes base.toFeed c' c''
  ends : ∀ {c'}, Reaches base c c' → Acc (fun later earlier => Goes base.toFeed earlier later) c'
  /-- What empties a stack on top of the pool does not succeed, whatever its layers hold, unless one
  of them has lost a pair. -/
  fails : ∀ {τ : Type} {top : Base τ} {start : τ} {pipeline : Pipeline} {crews : Nat → Crew}
    {tower : Tower τ}, pipeline.Lasts → pipeline.raise crews start = .ok tower →
    top.Gives Op.Valid start → ∀ {earlier : List Answer} {stack : Stack τ tower.depth},
    (Stack.feed top tower.depth).Polls tower.stack earlier stack →
    top.Plays base (Stack.bottom _ stack) c → ∀ {call : Call} {after : Stack τ tower.depth},
    (Stack.feed top tower.depth).call stack call = (.ok (), after) →
    ∃ before record : Recorded τ tower.depth,
      (Recorded.feed top.toFeed tower.depth).Polls (.blank _ tower.stack) earlier before ∧
      before.stack = stack ∧
      (Recorded.feed top.toFeed tower.depth).call before call = (.ok (), record) ∧
      record.stack = after ∧ ¬ record.Spared

/-- Once a pool is cancelled it stays so, and never looks as if it were at its end. -/
theorem final_of_cancelled (base : Base σ) (aligner : Aligner) {workers : Nat} (hw : 0 < workers)
    (below : σ) {c : Calling σ} (h : Reaches base (new aligner workers below) c)
    (hk : c.threads.cancelled = true) (hidle : c.current = none) : c.Final base := by
  have hsteady := h.steady (steady_new aligner hw below)
  have hhalted := hsteady.halted hk hidle
  have refuses {c' : Calling σ} (hr : Reaches base c c') : ∃ later, c'.calls = c.calls ++ later ∧
      Refuses c.threads.buffers.ready later ∧ .ok none ∉ polledIn later := by
    obtain ⟨later, hlater, hleaves⟩ := (hhalted.reaches hr).came
    exact ⟨later, hlater, hleaves.refuses, hleaves.refuses.none_notMem⟩
  exact {
    refuses
    goesOn := fun hr hc => (hr.steady hsteady).exists_goes _ hc
    ends := fun hr => (hr.steady hsteady).acc _
    fails := by
      intro τ top start pipeline crews tower hlasts hraise hvalid earlier stack hearlier hplays call
        after hcall
      obtain ⟨before, record, hbefore, rfl, hr, rfl⟩ := Recorded.exists_call hearlier hcall
      refine ⟨before, record, hbefore, rfl, hr, rfl, fun hspared => ?_⟩
      obtain ⟨answers, hanswers, hdry⟩ :=
        Pipeline.ended_of_call hlasts hraise hvalid hbefore hr hspared
      -- What the base says at last is what a poll of the pool was answered.
      obtain ⟨c', hr, hpolled⟩ := hplays answers _ hanswers
      obtain ⟨later, hlater, -, hnone⟩ := refuses hr
      rw [hlater, polledIn_append] at hpolled
      rw [List.append_cancel_left hpolled] at hnone
      exact hnone (List.mem_of_getLast? hdry) }

section Waiting

private theorem require_second (a b : Op) (ops : Script) :
    Source.feed.require 2 [a] (.ofList (b :: ops)) = (.ok true, [a, b], .ofList ops) := by
  have hpoll : Source.feed.poll (.ofList (b :: ops)) = (.ok (some b), .ofList ops) := rfl
  have hdone : Feed.require.gather 2 [a] b = .done [a, b] := rfl
  unfold Feed.require
  rw [if_neg (by simp), Feed.consume_done hpoll hdone]

private abbrev comparing : Aligner := ⟨Method.edit.strategyWith .myers, 25⟩

private abbrev unused : Calling Source :=
  new comparing 1 (.ofList [.copy 1, .delete [2], .insert [3]])

/-- One op is ready, and the pair after it waits for the only worker, when someone cancels. -/
private abbrev waiting : Calling Source where
  threads :=
    { aligner := comparing
      control := .returned (.ok ())
      buffers := ⟨[.copy 1], []⟩
      below := .ofList []
      chain := [.awaited 0]
      isOpen := true
      cancelled := true
      submitted := 1
      busy := 1
      jobs := [⟨[2], [3], 0⟩]
      replies := []
      workers := [.waiting none] }
  calls := [.shifted (.ok ())]
  current := none

private theorem reaches_waiting : Reaches Source.base unused waiting := by
  have begun : Reaches Source.base unused _ := .single .shift
  have looked := begun.tail (.goes (.thread (.poll (.proceed rfl rfl))))
  have spared := looked.tail (.goes (.thread (.poll (.spare rfl rfl (by decide)))))
  have single := spared.tail (.goes (.thread (.poll (.single rfl (Source.require_pair _ _ _) rfl))))
  have spared := single.tail (.goes (.thread (.poll (.spare rfl rfl (by decide)))))
  have counted := spared.tail (.goes (.thread (.poll (.count rfl (require_second _ _ _) rfl))))
  have submitted := counted.tail (.goes (.thread (.poll (.submit rfl))))
  have enough := submitted.tail (.goes (.thread (.poll (.enough rfl (by decide)))))
  have popped := enough.tail (.goes (.thread (.poll (.pop rfl rfl))))
  exact (popped.tail (.goes (.shifted rfl))).tail .cancel

/-- The calls that follow: two polls, a refill and an offer. The worker takes the job all the same,
refuses it and goes. -/
private theorem reaches_closed : ∃ c, Reaches Source.base waiting c ∧
    c.calls = waiting.calls ++ [.polled (.ok (some (.copy 1))), .polled (.error .cancelled),
      .shifted (.error .cancelled), .offered (.error (.illegalState .poolClosed))] := by
  have taken : Reaches Source.base waiting _ := .single (.take rfl)
  have polled := (taken.tail (.poll rfl)).tail (.goes (.thread (.poll (.cancel rfl rfl))))
  have busy := polled.tail (.goes (.thread (.work (show _ = [] ++ _ :: [] from rfl) (.take rfl))))
  have refused := busy.tail (.goes (.thread (.work (show _ = [] ++ _ :: [] from rfl) (.refuse rfl))))
  have finished := refused.tail (.goes (.thread (.work (show _ = [] ++ _ :: [] from rfl) .finish)))
  have replied := finished.tail (.goes (.thread (.work (show _ = [] ++ _ :: [] from rfl) .reply)))
  have left := replied.tail (.goes (.thread (.work (show _ = [] ++ _ :: [] from rfl)
    (.leave rfl rfl))))
  have failed := (left.tail (.goes (.thread (.poll (.quit rfl (by simp)))))).tail (.goes (.failed rfl))
  have begun := (failed.tail .shift).tail (.goes (.thread (.poll (.cancel rfl rfl))))
  have shifted := (begun.tail (.goes (.thread (.poll (.quit rfl (by simp)))))).tail
    (.goes (.shifted rfl))
  exact ⟨_, shifted.tail (.offer (.copy 2)), rfl⟩

/-- A pool of one thread in the place of the threads, cancelled in the same state. -/
private abbrev loneBase : Base (Stack Source 1) :=
  { Stack.feed Source.base 1 with offer := Stack.offer Source.base 1 }

private abbrev lone : Pool := ⟨comparing, 1, Pool.lazy, 1, [.pair [2] [3]], true, true⟩

private abbrev loneState : Stack Source 1 := lone.layer ⟨[.copy 1], []⟩ (.ofList [])

private abbrev pipeline : Pipeline := ⟨[.coalesce, .graph, .undo], 4, .edit, 1, none, .myers⟩

private abbrev raised : Tower (Stack Source 1) :=
  ⟨3, (.new .undo, .new (.align pipeline.aligner), .new .coalesce, loneState)⟩

theorem final_of_cancelled_waiting :
    Reaches Source.base unused waiting ∧ waiting.Final Source.base ∧
      (∃ c, Reaches Source.base waiting c ∧
        c.calls = waiting.calls ++ [.polled (.ok (some (.copy 1))), .polled (.error .cancelled),
          .shifted (.error .cancelled), .offered (.error (.illegalState .poolClosed))]) ∧
      pipeline.raise (fun _ => .ok Pool.lazy) loneState = .ok raised ∧
      ∀ after, (Stack.feed loneBase 3).call raised.stack .drain ≠ (.ok (), after) := by
  have hfinal := final_of_cancelled Source.base _ (by decide) _ reaches_waiting rfl rfl
  have hsteady := reaches_waiting.steady (steady_new _ (by decide) _)
  have hraise : pipeline.raise (fun _ => .ok Pool.lazy) loneState = .ok raised := rfl
  refine ⟨reaches_waiting, hfinal, reaches_closed, hraise, fun after hcall => ?_⟩
  have hlasts : pipeline.Lasts := by simp [Pipeline.Lasts]
  have hvalid : loneBase.Gives Op.Valid loneState := by
    intro answers last hp
    obtain ⟨ready, hpolls⟩ := Pool.polls_of_cancelled rfl hp
    exact Feed.gives_refusing (by decide) answers ready hpolls
  have hplays : loneBase.Plays Source.base loneState waiting :=
    Pool.plays_of_cancelled rfl hsteady rfl rfl rfl
  obtain ⟨before, record, hbefore, -, hrecord, -, hlost⟩ :=
    hfinal.fails hlasts hraise hvalid .nil hplays hcall
  obtain ⟨polled, hpolled, -⟩ := Feed.polls_call hrecord
  have hshort : loneBase.GivesBelow (2 ^ 31) loneState := Feed.givesBelow_of_rank (by decide)
  exact hlost (Pipeline.spared_of_short hraise (hvalid.imp fun _ h => h.1) (fun _ => hshort)
    (hbefore.append hpolled))

end Waiting

section Lost

private theorem align_match : (Graph.new comparing).align [5, 0] [5] =
    (.ok [.copy 1, .delete [0]], ⟨comparing, some ([5, 0], [5])⟩) := rfl

/-- A delete and an insert are ready that did not come from one pair, when someone cancels. -/
private abbrev split (target : Bytes) : Calling Source where
  threads :=
    { aligner := comparing
      control := .returned (.ok ())
      buffers := ⟨[.delete [0], .insert target], []⟩
      below := .ofList []
      chain := []
      isOpen := false
      cancelled := true
      submitted := 1
      busy := 0
      jobs := []
      replies := []
      workers := [.gone] }
  calls := [.shifted (.ok ()), .polled (.ok (some (.copy 1))), .shifted (.ok ())]
  current := none

private theorem reaches_split (target : Bytes) : Reaches Source.base
    (new comparing 1 (.ofList [.delete [5, 0], .insert [5], .insert target])) (split target) := by
  have begun : Reaches Source.base
      (new comparing 1 (.ofList [.delete [5, 0], .insert [5], .insert target])) _ := .single .shift
  have looked := begun.tail (.goes (.thread (.poll (.proceed rfl rfl))))
  have spared := looked.tail (.goes (.thread (.poll (.spare rfl rfl Nat.one_pos))))
  have counted := spared.tail (.goes (.thread (.poll (.count rfl (Source.require_pair _ _ _) rfl))))
  have submitted := counted.tail (.goes (.thread (.poll (.submit rfl))))
  have enough := submitted.tail (.goes (.thread (.poll (.enough rfl fun h => Nat.lt_irrefl 1 h.2))))
  have awaited := enough.tail (.goes (.thread (.poll (.await rfl rfl))))
  have busy := awaited.tail (.goes (.thread (.work (show _ = [] ++ _ :: [] from rfl) (.take rfl))))
  have compared := busy.tail
    (.goes (.thread (.work (show _ = [] ++ _ :: [] from rfl) (.compare rfl align_match))))
  have finished := compared.tail
    (.goes (.thread (.work (show _ = [] ++ _ :: [] from rfl) .finish)))
  have replied := finished.tail (.goes (.thread (.work (show _ = [] ++ _ :: [] from rfl) .reply)))
  have received := replied.tail
    (.goes (.thread (.poll (.receive rfl (show _ = [] ++ _ :: [] from rfl)))))
  have taken := (received.tail (.goes (.shifted rfl))).tail (.take rfl)
  have again := taken.tail .shift
  have looked := again.tail (.goes (.thread (.poll (.proceed rfl rfl))))
  have spared := looked.tail (.goes (.thread (.poll (.spare rfl rfl Nat.one_pos))))
  have closed := spared.tail (.goes (.thread (.poll (.close rfl (Feed.require_last rfl rfl)))))
  have left := closed.tail
    (.goes (.thread (.work (show _ = [] ++ _ :: [] from rfl) (.leave rfl rfl))))
  have joined := left.tail (.goes (.thread (.poll (.join rfl (by simp)))))
  have popped := joined.tail (.goes (.thread (.poll (.pop rfl rfl))))
  exact (popped.tail (.goes (.shifted rfl))).tail .cancel

/-- A pool of one thread, cancelled in the same state. -/
private abbrev splitState (target : Bytes) : Stack Source 1 :=
  Pool.layer ⟨comparing, 1, Pool.lazy, 0, [], false, true⟩ ⟨[.delete [0], .insert target], []⟩
    (.ofList [])

private theorem exists_call_split {aligner : Aligner} {target : Bytes}
    (h : aligner.align [0] target = .ok []) : ∃ after,
    (Stack.feed loneBase 1).call (.new (.align aligner), splitState target) .drain =
      (.ok (), after) := by
  have hreq : (Layer.feed Source.feed).require 2 [] (splitState target) =
      (.ok true, [.delete [0], .insert target], _) :=
    Feed.require_pair (Pool.poll_of_ready rfl) (Pool.poll_of_ready rfl)
  exact ⟨_, Feed.call_drain (Align.drain_lost rfl h hreq)⟩

/-- The two are a pair for the layer on top, which loses it and so comes to its end. -/
theorem exists_call_of_cancelled_flooding : ∃ (c : Calling Source) (start : Stack Source 1)
    (tower : Tower (Stack Source 1)) (after : Stack (Stack Source 1) tower.depth),
    Reaches Source.base (new comparing 1
      (.ofList [.delete [5, 0], .insert [5], .insert (List.replicate (2 ^ 32) 0)])) c ∧
    c.threads.cancelled = true ∧ c.current = none ∧ loneBase.Plays Source.base start c ∧
    loneBase.Gives Op.Valid start ∧ Pipeline.graphing.Lasts ∧
    Pipeline.graphing.raise (fun _ => .ok Pool.lazy) start = .ok tower ∧
    (Stack.feed loneBase tower.depth).call tower.stack .drain = (.ok (), after) := by
  have hreaches := reaches_split (List.replicate (2 ^ 32) 0)
  have hsteady := hreaches.steady (steady_new _ (by decide) _)
  have hplays : loneBase.Plays Source.base (splitState (List.replicate (2 ^ 32) 0)) _ :=
    Pool.plays_of_cancelled rfl hsteady rfl rfl rfl
  have hvalid : loneBase.Gives Op.Valid (splitState (List.replicate (2 ^ 32) 0)) := by
    intro answers last hp
    obtain ⟨ready, hpolls⟩ := Pool.polls_of_cancelled rfl hp
    exact Feed.gives_refusing Pipeline.valid_flooding answers ready hpolls
  have hlasts : Pipeline.graphing.Lasts := by simp [Pipeline.Lasts]
  have hraise : Pipeline.graphing.raise (fun _ => .ok Pool.lazy)
      (splitState (List.replicate (2 ^ 32) 0)) =
        .ok ⟨1, (.new (.align Pipeline.graphing.aligner), splitState (List.replicate (2 ^ 32) 0))⟩ :=
    rfl
  obtain ⟨after, hcall⟩ := exists_call_split Pipeline.align_flooding
  exact ⟨_, _, _, after, hreaches, rfl, rfl, hplays, hvalid, hlasts, hraise, hcall⟩

end Lost

end Calling

end BytePatch
