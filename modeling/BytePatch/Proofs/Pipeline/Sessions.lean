import BytePatch.Proofs.Pipeline.Forward

/-! Ops offered to a queue and polled from it by turns. What has come out so far and what is still
inside stand for what was offered, whenever either is done. -/
namespace BytePatch

namespace Queue

/-- Offers and polls in some order, none of which fails: what was offered, what came out, and the
queue that is left. Polls are made of queues of which something is sure. -/
inductive Session (Sure : Queue → Prop) (start : Queue) : Script → Script → Queue → Prop
  | start : Session Sure start [] [] start
  | offer {offered out queue op after} : Session Sure start offered out queue →
    queue.offer op = (.ok (), after) → Session Sure start (offered ++ [op]) out after
  | poll {offered out queue op after} : Session Sure start offered out queue → Sure queue →
    queue.poll = (.ok (some op), after) → Session Sure start offered (out ++ [op]) after
  | dry {offered out queue after} : Session Sure start offered out queue → Sure queue →
    queue.poll = (.ok none, after) → Session Sure start offered out after

variable {P : Aligner → Bytes → Bytes → Prop} {R : Refinement} {Fails : Fault → Prop}

/-- Layers that keep scripts, put on a queue that takes offers. -/
theorem Trades.foldl
    (hkeeps : ∀ {aligner orig target}, P aligner orig target → aligner.Keeps R orig target)
    {queue : Queue} {ops : Script} (h : queue.Trades P R Fails ops) {works : List Work}
    (hw : ∀ work ∈ works, work.Within R Fails ∧ work.Fresh) :
    (works.foldl (fun queue work => queue.under work) queue).Trades P R Fails ops := by
  induction works generalizing queue with
  | nil => exact h
  | cons work works ih =>
    obtain ⟨hwithin, hfresh⟩ := hw work List.mem_cons_self
    exact ih (h.under hkeeps work hwithin hfresh) fun work hm => hw work (List.mem_cons_of_mem _ hm)

/-- Whatever was offered has either come out or is still carried. -/
theorem Session.trades {start queue : Queue} {offered out : Script}
    (h : start.Session (Queue.Pairs P) offered out queue) (hstart : start.Trades P R Fails [])
    (hf : R.Fit offered) :
    ∃ rest, R.Rel offered (out ++ rest) ∧ queue.Trades P R Fails rest := by
  induction h with
  | start => exact ⟨[], R.refl _, hstart⟩
  | @offer offered out queue op after _ ho ih =>
    obtain ⟨rest, hrel, htrades⟩ := ih (R.left hf)
    have hrel' : R.Rel (offered ++ [op]) (out ++ (rest ++ [op])) := by
      simpa using R.append hrel (R.refl [op])
    exact ⟨rest ++ [op], hrel', htrades.offer (R.right (R.fit hrel' hf)) ho⟩
  | @poll offered out queue op after _ hsure hp ih =>
    obtain ⟨held, hrel, htrades⟩ := ih hf
    obtain ⟨rest, hop, htrades'⟩ := htrades.poll hsure hp
    exact ⟨rest, by simpa using R.trans hrel (R.prepend out hop), htrades'⟩
  | @dry offered out queue after _ hsure hp ih =>
    obtain ⟨held, hrel, htrades⟩ := ih hf
    obtain ⟨hnone, htrades'⟩ := htrades.poll hsure hp
    exact ⟨[], R.trans hrel (R.prepend out hnone), htrades'⟩

/-- What came out by turns and what a drain gives at last stand for all that was offered. -/
theorem Session.drain {start queue : Queue} {offered out : Script}
    (h : start.Session (Queue.Pairs P) offered out queue) (hstart : start.Trades P R Fails [])
    (hf : R.Fit offered) (hsure : queue.Pairs P) :
    match queue.drain with
    | (.error fault, _, _) => Fails fault
    | (.ok (), rest, _) => R.Rel offered (out ++ rest) := by
  obtain ⟨held, hrel, htrades⟩ := h.trades hstart hf
  have key := (htrades.carries hsure).drain
  generalize queue.drain = result at key
  obtain ⟨fault | _, rest, after⟩ := result
  · exact key
  · exact R.trans hrel (R.prepend out key)

/-- Offers and polls leave what is compared with as it is, and no more is held than was offered. -/
theorem Session.holds {Sure : Queue → Prop} {start queue : Queue} {offered out : Script}
    (h : start.Session Sure offered out queue) :
    Stack.aligners queue.depth queue.stack = Stack.aligners start.depth start.stack ∧
      queue.rank ≤ start.rank + Script.weight offered := by
  have polled {before after : Queue} {answer : Answer} (hp : before.poll = (answer, after)) :
      Stack.aligners after.depth after.stack = Stack.aligners before.depth before.stack ∧
        after.rank ≤ before.rank := by
    obtain rfl : before.poll.2 = after := congrArg Prod.snd hp
    exact ⟨Stack.aligners_poll Source.base before.stack, rank_poll_le before⟩
  induction h with
  | start => exact ⟨rfl, Nat.le_add_right _ _⟩
  | @offer offered out queue op after _ ho ih =>
    obtain ⟨depth, stack⟩ := queue
    rcases hr : Stack.offer Source.base depth op stack with ⟨answer, stack'⟩
    simp only [Queue.offer, hr] at ho
    cases ho
    have hrank : (⟨depth, stack'⟩ : Queue).rank ≤ (⟨depth, stack⟩ : Queue).rank + op.weight :=
      Stack.rank_offer_le Source.rank_offer_le hr
    refine ⟨(Stack.aligners_offer hr).trans ih.1, ?_⟩
    rw [Script.weight_append, Script.weight_cons, Script.weight_nil]
    omega
  | poll _ _ hp ih => exact ⟨(polled hp).1.trans ih.1, Nat.le_trans (polled hp).2 ih.2⟩
  | dry _ _ hp ih => exact ⟨(polled hp).1.trans ih.1, Nat.le_trans (polled hp).2 ih.2⟩

end Queue

namespace Pipeline

/-- Where fewer than 2 ^ 31 bytes are offered to a pipeline, the paths of all pairs can be told from
none whenever it is polled. -/
theorem counts_of_session {pipeline : Pipeline} {crews : Nat → Crew} {start queue : Queue}
    {offered out : Script} (hbuild : pipeline.build crews (.ofSource .offering) = .ok start)
    (h : start.Session (fun _ => True) offered out queue)
    (hshort : Script.weight offered < 2 ^ 31) :
    start.Session Queue.Counts offered out queue ∧ queue.Counts := by
  have short {offered out : Script} {queue : Queue}
      (h : start.Session (fun _ => True) offered out queue)
      (hshort : Script.weight offered < 2 ^ 31) : queue.Counts := by
    obtain ⟨haligners, hrank⟩ := h.holds
    rw [rank_build hbuild] at hrank
    refine Queue.counts_of_short (haligners ▸ aligners_of_build hbuild) ?_
    exact Nat.lt_of_le_of_lt (hrank.trans_eq (Nat.zero_add _)) hshort
  refine ⟨?_, short h hshort⟩
  induction h with
  | start => exact .start
  | offer h ho ih =>
    rw [Script.weight_append] at hshort
    exact .offer (ih (Nat.lt_of_le_of_lt (Nat.le_add_right _ _) hshort)) ho
  | poll h _ hp ih => exact .poll (ih hshort) (short h hshort) hp
  | dry h _ hp ih => exact .dry (ih hshort) (short h hshort) hp

/-- What may come of the drain after ops were offered and polled by turns: a refusal, or the rest of
a script that remembers rightly and that uses up and writes just what the offered one does. -/
def Completes (offered out : Script) (orig : Bytes) : Except Fault Unit × List Op × Queue → Prop
  | (.error fault, _, _) => Refused fault
  | (.ok (), rest, _) => Script.Faithful (out ++ rest) orig ∧
    Script.play (out ++ rest) orig = offered.play orig

/-- However ops are offered to a pipeline and polled from it by turns, what comes out of it, the
last of it by a drain, plays as what was offered on every string the latter was made for. Nothing is
claimed once it is polled while a stage has a pair to come to that fits and whose paths cannot be told
from none. -/
theorem session_plays {pipeline : Pipeline} {crews : Nat → Crew} {start queue : Queue}
    {offered out : Script} {orig : Bytes} (hstages : ∀ stage ∈ pipeline.stages, stage.Forward)
    (hbuild : pipeline.build crews (.ofSource .offering) = .ok start)
    (hvalid : ∀ op ∈ offered, op.Valid)
    (hsession : start.Session Queue.Counts offered out queue) (hcounts : queue.Counts)
    (hfaithful : offered.Faithful orig) : Completes offered out orig queue.drain := by
  obtain ⟨works, rfl, hlays⟩ := exists_works_of_build hbuild
  have hworks : ∀ work ∈ works, work.Within terms.refinement Refused ∧ work.Fresh := by
    intro work hm
    obtain ⟨stage, hs, hl⟩ := hlays work hm
    exact ⟨within_of_lays (hstages stage hs) hl, hl.fresh⟩
  have hfits := fits_of_valid hvalid
  have hstart : Queue.Trades Aligner.Counts terms.refinement Refused (.ofSource .offering) [] :=
    Queue.trades_offering.weaken _ (fun _ _ heq => heq ▸ Terms.Keeps.refl _)
      (fun _ _ => trivial) nofun nofun
  have hdrain := hsession.drain (hstart.foldl Aligner.keeps_of_counts hworks) hfits hcounts
  generalize queue.drain = result at hdrain ⊢
  obtain ⟨fault | _, rest, after⟩ := result
  · exact hdrain
  have hkeeps : terms.Keeps offered (out ++ rest) := hdrain
  obtain ⟨src, dst, tail, rfl, hedits⟩ := hfaithful.exists_edits
  have hout := hkeeps.edits hedits
  exact ⟨hout.faithful tail, by rw [hout.play, hedits.play]⟩

private abbrev diverted : Pipeline := ⟨[.oneWay, .pump, .graph], 2, .inertial, 1, none, .myers⟩

/-- What a pump has drained and handed out, above a layer that forgets. -/
private abbrev forgetting (pump : Pump) (source : Source) : Stack Source 2 :=
  (.new (.pump pump), (.new .forget, source))

/-- What is pending is to be compared. -/
private def diverting (pending : List Op) (pump : Pump) (source : Source) : Queue :=
  ⟨3, (⟨⟨[], pending⟩, .align diverted.aligner⟩, forgetting pump source)⟩

private theorem poll_diverting :
    (diverting [] .new ⟨⟨[], [.delete [7], .insert [9]]⟩, .offered⟩).poll =
      (.ok (some (.skip 1)), diverting [.insert [9]] ⟨[.insert [9], .skip 1], [], true⟩ .offering) := by
  have hfirst : (Layer.feed Source.feed).poll
      (.new .forget, ⟨⟨[], [.delete [7], .insert [9]]⟩, .offered⟩) =
        (.ok (some (.skip 1)), (.new .forget, ⟨⟨[], [.insert [9]]⟩, .offered⟩)) := rfl
  have hsecond : (Layer.feed Source.feed).poll (.new .forget, ⟨⟨[], [.insert [9]]⟩, .offered⟩) =
      (.ok (some (.insert [9])), (.new .forget, .offering)) := rfl
  have hdry : (Layer.feed Source.feed).poll (.new .forget, .offering) =
      (.ok none, (.new .forget, .offering)) := rfl
  have hkeep (kept : List Op) (op : Op) : Feed.keepAll kept op = .more (op :: kept) := rfl
  have hfill : Pump.fill (Layer.feed Source.feed) .new
      (.new .forget, ⟨⟨[], [.delete [7], .insert [9]]⟩, .offered⟩) =
        (.ok (), ⟨[], [.skip 1, .insert [9]], true⟩, (.new .forget, .offering)) := by
    simp [Pump.fill, Pump.new, Feed.drain, Feed.consume_more hfirst (hkeep _ _),
      Feed.consume_more hsecond (hkeep _ _), Feed.consume_dry hdry]
  have hskip : (Stack.feed Source.base 2).poll
      (forgetting .new ⟨⟨[], [.delete [7], .insert [9]]⟩, .offered⟩) =
        (.ok (some (.skip 1)), forgetting ⟨[.skip 1], [.insert [9]], true⟩ .offering) :=
    Layer.poll_pump hfill
  have hrequire : (Stack.feed Source.base 2).require 2 []
      (forgetting .new ⟨⟨[], [.delete [7], .insert [9]]⟩, .offered⟩) =
        (.ok true, [.skip 1, .insert [9]],
          forgetting ⟨[.insert [9], .skip 1], [], true⟩ .offering) :=
    Feed.require_pair hskip rfl
  have hpoll : Layer.poll (Stack.feed Source.base 2)
      (.new (.align diverted.aligner),
        forgetting .new ⟨⟨[], [.delete [7], .insert [9]]⟩, .offered⟩) =
      (.ok (some (.skip 1)), ⟨⟨[], [.insert [9]]⟩, .align diverted.aligner⟩,
        forgetting ⟨[.insert [9], .skip 1], [], true⟩ .offering) := by
    simp [Layer.poll, Layer.shift, Layer.new, Buffers.empty, Align.shift, hrequire, Op.pair?]
  exact Queue.poll_of_stack hpoll

/-- A poll between the offers fills the pump, which then keeps what is offered: its bytes are not
forgotten, and they are compared with what was offered before. -/
theorem session_plays_diverted :
    ∃ start queue : Queue,
      diverted.build (fun _ => .ok Pool.lazy) (.ofSource .offering) = .ok start ∧
      start.Session Queue.Counts [.delete [7], .insert [9], .delete [8]] [.skip 1] queue ∧
      queue.Counts ∧ Completes [.delete [7], .insert [9], .delete [8]] [.skip 1] [7, 8, 1] queue.drain := by
  have hbuild : diverted.build (fun _ => .ok Pool.lazy) (.ofSource .offering) =
      .ok (diverting [] .new .offering) := rfl
  have hsession : (diverting [] .new .offering).Session (fun _ => True)
      [.delete [7], .insert [9], .delete [8]] [.skip 1]
      (diverting [.insert [9]] ⟨[.insert [9], .skip 1], [.delete [8]], true⟩ .offering) :=
    .offer (.poll (.offer (.offer .start rfl) rfl) trivial poll_diverting) rfl
  obtain ⟨hsure, hcounts⟩ := counts_of_session hbuild hsession (by decide)
  refine ⟨_, _, hbuild, hsure, hcounts, ?_⟩
  refine session_plays (by decide) hbuild (by decide) hsure hcounts ?_
  exact ⟨⟨_, rfl⟩, by simp [Script.Remembers, Op.reach]⟩

private abbrev comparing (ops : Script) : Queue :=
  (Queue.ofSource ⟨⟨[], ops⟩, .offered⟩).under (.align graphing.aligner)

theorem exists_session_of_lost {orig target : Bytes} (htarget : target ≠ [])
    (halign : graphing.aligner.align orig target = .ok []) : ∃ start queue : Queue,
    graphing.build (fun _ => .ok Pool.lazy) (.ofSource .offering) = .ok start ∧
      start.Session (fun _ => True) [.delete orig, .insert target] [] queue ∧
      ¬ Completes [.delete orig, .insert target] [] orig queue.drain := by
  have hsession : (comparing []).Session (fun _ => True) [.delete orig, .insert target] []
      (comparing [.delete orig, .insert target]) := .offer (.offer .start rfl) rfl
  refine ⟨_, _, build_graphing _ _, hsession, ?_⟩
  have hrequire : Source.feed.require 2 [] ⟨⟨[], [.delete orig, .insert target]⟩, .offered⟩ =
      (.ok true, [.delete orig, .insert target], .offering) := Feed.require_pair rfl rfl
  have hdrain : (comparing [.delete orig, .insert target]).drain = (.ok (), [], comparing []) :=
    Queue.drain_of_stack (Align.drain_lost rfl halign hrequire)
  rw [hdrain]
  rintro ⟨-, hlost⟩
  have hplay := (Script.edits_pair orig target).play []
  rw [List.append_nil] at hplay
  rw [hplay] at hlost
  cases hlost
  exact htarget rfl

/-- What was offered is gone after a drain that did not fail. -/
theorem not_completes_flooding : ∃ start queue : Queue,
    graphing.build (fun _ => .ok Pool.lazy) (.ofSource .offering) = .ok start ∧
      (∀ op ∈ flooding, op.Valid) ∧ Script.Faithful flooding [0] ∧
      start.Session (fun _ => True) flooding [] queue ∧ ¬ Completes flooding [] [0] queue.drain := by
  obtain ⟨start, queue, hbuild, hsession, hnot⟩ :=
    exists_session_of_lost (target_ne_nil_of_lost lost_flooding) align_flooding
  exact ⟨start, queue, hbuild, valid_flooding, (Script.edits_pair [0] _).faithful [], hsession, hnot⟩

end Pipeline

end BytePatch
