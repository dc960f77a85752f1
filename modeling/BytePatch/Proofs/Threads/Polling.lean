import Mathlib.Logic.Relation
import BytePatch.Proofs.Queue.Answers
import BytePatch.Proofs.Threads.Schedule

/-! A pool that is polled by a thread again and again, whether or not its polls fail. What each look
at the workers finds is written down, and a pool that is told the same at its looks answers the same,
whatever the order in which the threads go on. -/
namespace BytePatch

namespace Threads

variable {σ : Type} {feed : Feed σ} {t t' : Threads σ}

/-- What the thread that polls has no part in. -/
theorem Polls.kept (hs : Polls feed t t') :
    t'.aligner = t.aligner ∧ t'.workers = t.workers ∧ t'.cancelled = t.cancelled := by
  cases hs with
  | @receive slot reply => cases reply <;> exact ⟨rfl, rfl, rfl⟩
  | _ => exact ⟨rfl, rfl, rfl⟩

theorem cancelled_step (h : Step feed t t') : t'.cancelled = t.cancelled := by
  cases h with
  | work hw hs => exact (hs.apart _).cancelled
  | poll hs => exact hs.kept.2.2

/-- A schedule says of the first looks what they found. -/
def Tells (early : Nat → Bool) (found : List Bool) : Prop :=
  ∀ look (h : look < found.length), early look = found[look]

theorem exists_tells (found : List Bool) : ∃ early, Tells early found :=
  ⟨fun look => found.getD look false, fun look hl => by simp [hl]⟩

theorem Tells.before {early : Nat → Bool} {found later : List Bool}
    (h : Tells early (found ++ later)) : Tells early found := by
  intro look hl
  rw [h look (by simp; omega), List.getElem_append_left hl]

theorem Tells.last {early : Nat → Bool} {found : List Bool} {last : Bool}
    (h : Tells early (found ++ [last])) : early found.length = last := by
  rw [h found.length (by simp)]
  simp

end Threads

/-- A pool, what its polls have answered so far, and whether a poll is under way. -/
structure Polling (σ : Type) where
  threads : Threads σ
  answers : List Answer
  refilling : Bool

namespace Pool

variable {σ : Type} {feed : Feed σ} {pool pool' : Pool} {buffers buffers' : Buffers} {s s' : σ}

/-- The layer that a pool makes, with what is below it. -/
def layer (pool : Pool) (buffers : Buffers) (s : σ) : Layer × σ := (⟨buffers, .pool pool⟩, s)

theorem poll_of_ready {op : Op} {ready : List Op} (hready : buffers.ready = op :: ready) :
    (Layer.feed feed).poll (pool.layer buffers s) =
      (.ok (some op), pool.layer { buffers with ready } s) := by
  simp [Layer.feed, Layer.poll, layer, hready]

theorem poll_of_failed (hready : buffers.ready = []) {fault : Fault}
    (h : pool.shift feed buffers s = (.error fault, pool', buffers', s')) :
    (Layer.feed feed).poll (pool.layer buffers s) = (.error fault, pool'.layer buffers' s') := by
  simp [Layer.feed, Layer.poll, Layer.shift, layer, hready, h]

theorem poll_of_dry (hready : buffers.ready = [])
    (h : pool.shift feed buffers s = (.ok (), pool', buffers', s'))
    (hready' : buffers'.ready = []) :
    (Layer.feed feed).poll (pool.layer buffers s) = (.ok none, pool'.layer buffers' s') := by
  simp [Layer.feed, Layer.poll, Layer.shift, layer, hready, h, hready']

theorem poll_of_refilled (hready : buffers.ready = [])
    (h : pool.shift feed buffers s = (.ok (), pool', buffers', s')) {op : Op} {ready : List Op}
    (hready' : buffers'.ready = op :: ready) :
    (Layer.feed feed).poll (pool.layer buffers s) =
      (.ok (some op), pool'.layer { buffers' with ready } s') := by
  simp [Layer.feed, Layer.poll, Layer.shift, layer, hready, h, hready']

end Pool

namespace Polling

variable {σ : Type}

def new (aligner : Aligner) (workers : Nat) (below : σ) : Polling σ :=
  ⟨.new aligner workers below, [], false⟩

/-- Some thread goes on, or a poll begins, or it ends with an answer. The next poll may always
begin. -/
inductive Step (feed : Feed σ) : Polling σ → Polling σ → Prop
  | thread {t t' answers refilling} : Threads.Step feed t t' →
    Step feed ⟨t, answers, refilling⟩ ⟨t', answers, refilling⟩
  | take {t answers op ready} : t.buffers.ready = op :: ready →
    Step feed ⟨t, answers, false⟩
      ⟨{ t with buffers := { t.buffers with ready } }, answers ++ [.ok (some op)], false⟩
  | refill {t answers} : t.buffers.ready = [] →
    Step feed ⟨t, answers, false⟩ ⟨{ t with control := .checking }, answers, true⟩
  | refilled {t answers op ready} : t.control = .returned (.ok ()) →
    t.buffers.ready = op :: ready →
    Step feed ⟨t, answers, true⟩
      ⟨{ t with buffers := { t.buffers with ready } }, answers ++ [.ok (some op)], false⟩
  | dry {t answers} : t.control = .returned (.ok ()) → t.buffers.ready = [] →
    Step feed ⟨t, answers, true⟩ ⟨t, answers ++ [.ok none], false⟩
  | failed {t answers fault} : t.control = .returned (.error fault) →
    Step feed ⟨t, answers, true⟩ ⟨t, answers ++ [.error fault], false⟩

/-- What comes of a pool by steps of any threads in any order. -/
abbrev Reaches (feed : Feed σ) : Polling σ → Polling σ → Prop :=
  Relation.ReflTransGen (Step feed)

variable {feed : Feed σ}

/-- The polls that are over have brought the layer to where the threads are going, or to where the
refill began that is under way. -/
def Answered (feed : Feed σ) (start : Layer × σ) (answers : List Answer)
    (result : Except Fault Unit × Pool × Buffers × σ) : Bool → Prop
  | false => (Layer.feed feed).Polls start answers (result.2.1.layer result.2.2.1 result.2.2.2)
  | true => ∃ pool buffers s, (Layer.feed feed).Polls start answers (pool.layer buffers s) ∧
    buffers.ready = [] ∧ Pool.shift feed pool buffers s = result

/-- The threads are on their way to what the polls of a pool come to that has the schedule. -/
def Follows (feed : Feed σ) (start : Layer × σ) (early : Nat → Bool) (looks : Nat)
    (p : Polling σ) : Prop :=
  ∃ result, p.threads.Leads feed early looks result ∧
    Answered feed start p.answers result p.refilling

/-- What stays true of a pool that is polled and that nobody cancels. -/
structure Tracked (feed : Feed σ) (aligner : Aligner) (workers : Nat) (s : σ) (found : List Bool)
    (p : Polling σ) : Prop where
  sound : p.threads.Sound
  going : p.threads.cancelled = false
  /-- Between polls nothing is under way. -/
  rests : p.refilling = false → ∃ answer, p.threads.control = .returned answer
  follows : ∀ early, Threads.Tells early found →
    Follows feed ((Pool.new aligner workers early).layer .empty s) early found.length p

theorem tracked_new (aligner : Aligner) {workers : Nat} (h : 0 < workers) (s : σ) :
    Tracked feed aligner workers s [] (new aligner workers s) where
  sound := Threads.sound_new aligner h s
  going := rfl
  rests _ := ⟨.ok (), rfl⟩
  follows early _ := by
    refine ⟨(.ok (), Pool.new aligner workers early, .empty, s), ⟨[], .nil, ?_⟩, .nil⟩
    simp [new, Threads.new, Threads.Comes, Threads.pool, Pool.new]

section Step

variable {aligner : Aligner} {workers : Nat} {s : σ} {found : List Bool} {t t' : Threads σ}
  {answers : List Answer} {refilling : Bool}

private theorem Tracked.thread (h : Tracked feed aligner workers s found ⟨t, answers, refilling⟩)
    (hs : Threads.Step feed t t') :
    ∃ found, Tracked feed aligner workers s found ⟨t', answers, refilling⟩ := by
  have hgoing : t'.cancelled = false := (Threads.cancelled_step hs).trans h.going
  have hsound := h.sound.step hs
  cases hs with
  | work hw hs =>
    refine ⟨found, hsound, hgoing, fun hp => ?_, fun early htells => ?_⟩
    · obtain ⟨answer, hc⟩ := h.rests hp
      exact ⟨answer, (hs.apart _).control.trans hc⟩
    · obtain ⟨result, hleads, hanswered⟩ := h.follows early htells
      exact ⟨result, hleads.work h.sound h.going hs hw, hanswered⟩
  | poll hs =>
    refine ⟨found ++ t.look?.toList, hsound, hgoing, fun hp => ?_, fun early htells => ?_⟩
    · obtain ⟨answer, hc⟩ := h.rests hp
      cases hs <;> simp_all
    · obtain ⟨result, hleads, hanswered⟩ := h.follows early htells.before
      rw [List.length_append]
      refine ⟨result, hleads.poll h.sound h.going hs fun last hlast => ?_, hanswered⟩
      rw [hlast] at htells
      exact htells.last

private theorem follows_returned {start : Layer × σ} {early : Nat → Bool} {looks : Nat}
    {answer : Except Fault Unit} (hc : t.control = .returned answer) :
    Follows feed start early looks ⟨t, answers, refilling⟩ ↔
      ∃ entries, List.Forall₂ (Threads.Stands t.aligner t.dues) t.chain entries ∧
        Answered feed start answers (answer, t.pool early looks entries, t.buffers, t.below)
          refilling := by
  constructor
  · rintro ⟨result, ⟨entries, hstands, hcomes⟩, hanswered⟩
    rw [hc] at hcomes
    exact ⟨entries, hstands, hcomes ▸ hanswered⟩
  · rintro ⟨entries, hstands, hanswered⟩
    exact ⟨_, ⟨entries, hstands, by rw [hc]; rfl⟩, hanswered⟩

private theorem Tracked.step {p p' : Polling σ} (h : Tracked feed aligner workers s found p)
    (hs : Step feed p p') : ∃ found, Tracked feed aligner workers s found p' := by
  cases hs with
  | thread hs => exact h.thread hs
  | @take t answers op ready hready =>
    obtain ⟨answer, hc⟩ := h.rests rfl
    refine ⟨found, h.sound.withReady ready, h.going, fun _ => ⟨answer, hc⟩, fun early htells => ?_⟩
    obtain ⟨entries, hstands, hpolls⟩ := (follows_returned hc).1 (h.follows early htells)
    exact (follows_returned (t := { t with buffers := { t.buffers with ready } }) hc).2
      ⟨entries, hstands, hpolls.append (.single (Pool.poll_of_ready hready))⟩
  | @refill t answers hready =>
    obtain ⟨answer, hc⟩ := h.rests rfl
    refine ⟨found, h.sound.again hc, h.going, nofun, fun early htells => ?_⟩
    obtain ⟨entries, hstands, hpolls⟩ := (follows_returned hc).1 (h.follows early htells)
    exact ⟨_, ⟨entries, hstands, rfl⟩, _, _, _, hpolls, hready, rfl⟩
  | @refilled t answers op ready hc hready =>
    refine ⟨found, h.sound.withReady ready, h.going, fun _ => ⟨_, hc⟩, fun early htells => ?_⟩
    obtain ⟨entries, hstands, pool, buffers, below, hpolls, hnil, hshift⟩ :=
      (follows_returned hc).1 (h.follows early htells)
    exact (follows_returned (t := { t with buffers := { t.buffers with ready } }) hc).2
      ⟨entries, hstands, hpolls.append (.single (Pool.poll_of_refilled hnil hshift hready))⟩
  | @dry t answers hc hready =>
    refine ⟨found, h.sound, h.going, fun _ => ⟨_, hc⟩, fun early htells => ?_⟩
    obtain ⟨entries, hstands, pool, buffers, below, hpolls, hnil, hshift⟩ :=
      (follows_returned hc).1 (h.follows early htells)
    exact (follows_returned hc).2
      ⟨entries, hstands, hpolls.append (.single (Pool.poll_of_dry hnil hshift hready))⟩
  | @failed t answers fault hc =>
    refine ⟨found, h.sound, h.going, fun _ => ⟨_, hc⟩, fun early htells => ?_⟩
    obtain ⟨entries, hstands, pool, buffers, below, hpolls, hnil, hshift⟩ :=
      (follows_returned hc).1 (h.follows early htells)
    exact (follows_returned hc).2
      ⟨entries, hstands, hpolls.append (.single (Pool.poll_of_failed hnil hshift))⟩

theorem Reaches.tracked {p : Polling σ} (hw : 0 < workers)
    (h : Reaches feed (new aligner workers s) p) :
    ∃ found, Tracked feed aligner workers s found p := by
  induction h with
  | refl => exact ⟨[], tracked_new aligner hw s⟩
  | tail _ hs ih =>
    obtain ⟨found, h⟩ := ih
    exact h.step hs

/-- Whatever the order in which the threads go on, the polls are those of a pool on some
schedule. -/
theorem Reaches.polls {p : Polling σ} (hw : 0 < workers)
    (h : Reaches feed (new aligner workers s) p) : ∃ early last,
    (Layer.feed feed).Polls (.new (.pool (.new aligner workers early)), s) p.answers last := by
  obtain ⟨found, h⟩ := h.tracked hw
  obtain ⟨early, htells⟩ := Threads.exists_tells found
  obtain ⟨result, -, hanswered⟩ := h.follows early htells
  refine ⟨early, ?_⟩
  obtain ⟨t, answers, refilling⟩ := p
  cases refilling with
  | false => exact ⟨_, hanswered⟩
  | true =>
    obtain ⟨pool, buffers, below, hpolls, -⟩ := hanswered
    exact ⟨_, hpolls⟩

end Step

end Polling

end BytePatch
