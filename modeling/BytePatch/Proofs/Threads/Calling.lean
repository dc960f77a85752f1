import Mathlib.Logic.Relation
import BytePatch.Proofs.Threads.Progress
import BytePatch.Proofs.Threads.Termination

/-! The calls on a pool, one after another: it is polled, or told to refill, or an op is offered, and
anyone may cancel at any time. What each call comes to is written down. However the threads take
turns, every call is over some time. -/
namespace BytePatch

/-- What a call came to. -/
inductive Returned where
  | polled (answer : Answer)
  | shifted (answer : Except Fault Unit)
  | offered (answer : Except Fault Unit)

namespace Returned

def polled? : Returned → Option Answer
  | .polled answer => some answer
  | .shifted _ | .offered _ => none

/-- A poll or a refill has failed. -/
def Failed : Returned → Prop
  | .polled (.error _) | .shifted (.error _) => True
  | _ => False

end Returned

/-- What the polls among these calls answered. -/
def polledIn (calls : List Returned) : List Answer := calls.filterMap Returned.polled?

@[simp] theorem polledIn_nil : polledIn [] = [] := rfl

@[simp] theorem polledIn_polled (answer : Answer) (calls : List Returned) :
    polledIn (.polled answer :: calls) = answer :: polledIn calls := rfl

@[simp] theorem polledIn_shifted (answer : Except Fault Unit) (calls : List Returned) :
    polledIn (.shifted answer :: calls) = polledIn calls := rfl

@[simp] theorem polledIn_offered (answer : Except Fault Unit) (calls : List Returned) :
    polledIn (.offered answer :: calls) = polledIn calls := rfl

@[simp] theorem polledIn_append (xs ys : List Returned) :
    polledIn (xs ++ ys) = polledIn xs ++ polledIn ys :=
  List.filterMap_append

/-- A call that waits for a refill. -/
inductive Request where
  | poll
  | shift

/-- A pool, the calls on it that are over, and the one that is under way. -/
structure Calling (σ : Type) where
  threads : Threads σ
  calls : List Returned
  current : Option Request

namespace Threads

variable {σ : Type} {t : Threads σ}

/-- An op that is offered goes to what is below the pool, unless the pool is closed. -/
def offer (base : Base σ) (op : Op) (t : Threads σ) : Except Fault Unit × Threads σ :=
  if t.isOpen then ((base.offer op t.below).1, { t with below := (base.offer op t.below).2 })
  else (.error (.illegalState .poolClosed), t)

theorem offer_of_closed (base : Base σ) (op : Op) (h : t.isOpen = false) :
    t.offer base op = (.error (.illegalState .poolClosed), t) := by
  simp [offer, h]

/-- All that an offer can change is what is below the pool. -/
theorem exists_offer_eq (base : Base σ) (op : Op) (t : Threads σ) :
    ∃ below, (t.offer base op).2 = { t with below } := by
  unfold offer
  split
  · exact ⟨_, rfl⟩
  · exact ⟨t.below, rfl⟩

end Threads

namespace Calling

variable {σ : Type}

def new (aligner : Aligner) (workers : Nat) (below : σ) : Calling σ :=
  ⟨.new aligner workers below, [], none⟩

/-- A thread goes on, or the call that is under way is over. -/
inductive Goes (feed : Feed σ) : Calling σ → Calling σ → Prop
  | thread {t t' calls current} : Threads.Step feed t t' →
    Goes feed ⟨t, calls, current⟩ ⟨t', calls, current⟩
  | given {t calls op ready} : t.control = .returned (.ok ()) → t.buffers.ready = op :: ready →
    Goes feed ⟨t, calls, some .poll⟩
      ⟨{ t with buffers := { t.buffers with ready } }, calls ++ [.polled (.ok (some op))], none⟩
  | dry {t calls} : t.control = .returned (.ok ()) → t.buffers.ready = [] →
    Goes feed ⟨t, calls, some .poll⟩ ⟨t, calls ++ [.polled (.ok none)], none⟩
  | failed {t calls fault} : t.control = .returned (.error fault) →
    Goes feed ⟨t, calls, some .poll⟩ ⟨t, calls ++ [.polled (.error fault)], none⟩
  | shifted {t calls answer} : t.control = .returned answer →
    Goes feed ⟨t, calls, some .shift⟩ ⟨t, calls ++ [.shifted answer], none⟩

/-- When no call is under way any may be made. Offers, and polls while something is ready, are over
at once. -/
inductive Step (base : Base σ) : Calling σ → Calling σ → Prop
  | goes {c c'} : Goes base.toFeed c c' → Step base c c'
  | cancel {t calls current} :
    Step base ⟨t, calls, current⟩ ⟨{ t with cancelled := true }, calls, current⟩
  | take {t calls op ready} : t.buffers.ready = op :: ready →
    Step base ⟨t, calls, none⟩
      ⟨{ t with buffers := { t.buffers with ready } }, calls ++ [.polled (.ok (some op))], none⟩
  | poll {t calls} : t.buffers.ready = [] →
    Step base ⟨t, calls, none⟩ ⟨{ t with control := .checking }, calls, some .poll⟩
  | shift {t calls} :
    Step base ⟨t, calls, none⟩ ⟨{ t with control := .checking }, calls, some .shift⟩
  | offer {t calls} (op : Op) :
    Step base ⟨t, calls, none⟩
      ⟨(t.offer base op).2, calls ++ [.offered (t.offer base op).1], none⟩

/-- What comes of a pool by steps of all kinds in any order. -/
abbrev Reaches (base : Base σ) : Calling σ → Calling σ → Prop :=
  Relation.ReflTransGen (Step base)

/-- What is true of a pool at all times, whatever is called. -/
structure Steady (c : Calling σ) : Prop where
  sound : c.threads.Sound
  /-- Between calls nothing is under way. -/
  rests : c.current = none → ∃ answer, c.threads.control = .returned answer

theorem steady_new (aligner : Aligner) {workers : Nat} (h : 0 < workers) (below : σ) :
    (new aligner workers below).Steady :=
  ⟨Threads.sound_new aligner h below, fun _ => ⟨.ok (), rfl⟩⟩

section Goes

variable {feed : Feed σ} {c c' : Calling σ}

theorem Goes.steady (hg : Goes feed c c') (h : c.Steady) : c'.Steady := by
  cases hg with
  | thread hs =>
    refine ⟨h.sound.step hs, fun hidle => ?_⟩
    obtain ⟨answer, hc⟩ := h.rests hidle
    cases hs with
    | work _ hs => exact ⟨answer, (hs.apart _).control.trans hc⟩
    | poll hs => cases hs <;> simp_all
  | given hc => exact ⟨h.sound.withReady _, fun _ => ⟨_, hc⟩⟩
  | dry hc | failed hc | shifted hc => exact ⟨h.sound, fun _ => ⟨_, hc⟩⟩

theorem Steady.exists_goes (feed : Feed σ) (h : c.Steady) (hc : c.current ≠ none) :
    ∃ c', Goes feed c c' := by
  obtain ⟨t, calls, - | request⟩ := c
  · exact absurd rfl hc
  by_cases hover : ∀ answer, t.control ≠ .returned answer
  · obtain ⟨t', hs⟩ : ∃ t', Threads.Step feed t t' := h.sound.exists_step hover
    exact ⟨_, .thread hs⟩
  push Not at hover
  obtain ⟨answer, hover⟩ := hover
  match request, answer, hready : t.buffers.ready with
  | .shift, _, _ => exact ⟨_, .shifted hover⟩
  | .poll, .error fault, _ => exact ⟨_, .failed hover⟩
  | .poll, .ok _, [] => exact ⟨_, .dry hover hready⟩
  | .poll, .ok _, op :: ready => exact ⟨_, .given hover hready⟩

/-- What is left to do until the call is over. -/
def left (feed : Feed σ) (c : Calling σ) : Nat :=
  c.threads.left feed + if c.current.isSome then 1 else 0

private theorem Goes.left_lt (hg : Goes feed c c') (h : c.Steady) : left feed c' < left feed c := by
  cases hg with
  | thread hs => exact Nat.add_lt_add_right (h.sound.left_step hs) _
  | given hc hready =>
    simp only [left, Threads.left, Threads.load, Threads.errands, hready, Script.weight_cons,
      Option.isSome_some, Option.isSome_none, if_true, Bool.false_eq_true, if_false]
    omega
  | dry | failed | shifted => exact Nat.lt_succ_self _

theorem Steady.acc (feed : Feed σ) (h : c.Steady) :
    Acc (fun later earlier => Goes feed earlier later) c := by
  induction hn : left feed c using Nat.strongRecOn generalizing c with
  | _ n ih =>
    refine .intro c fun later hg => ih _ ?_ (hg.steady h) rfl
    rw [← hn]
    exact hg.left_lt h

/-- A poll is over some time, and has answered once. -/
theorem Steady.exists_polled (feed : Feed σ) (h : c.Steady) (hc : c.current = some .poll) :
    ∃ c' answer, Relation.ReflTransGen (Goes feed) c c' ∧ c'.current = none ∧
      c'.calls = c.calls ++ [.polled answer] := by
  induction h.acc feed with
  | intro c _ ih =>
    obtain ⟨c', hg⟩ := h.exists_goes feed (by simp [hc])
    have hnext := ih c' hg (hg.steady h)
    cases hg with
    | thread hs =>
      obtain ⟨last, answer, hlast, hidle, hcalls⟩ := hnext hc
      exact ⟨last, answer, .head (.thread hs) hlast, hidle, hcalls⟩
    | given hover hready => exact ⟨_, _, .single (.given hover hready), rfl, rfl⟩
    | dry hover hready => exact ⟨_, _, .single (.dry hover hready), rfl, rfl⟩
    | failed hover => exact ⟨_, _, .single (.failed hover), rfl, rfl⟩
    | shifted => cases hc

end Goes

section Step

variable {base : Base σ} {c c' : Calling σ}

theorem Step.steady (hs : Step base c c') (h : c.Steady) : c'.Steady := by
  cases hs with
  | goes hg => exact hg.steady h
  | cancel => exact ⟨h.sound.withCancelled true, h.rests⟩
  | take => exact ⟨h.sound.withReady _, h.rests⟩
  | poll | shift =>
    obtain ⟨answer, hc⟩ := h.rests rfl
    exact ⟨h.sound.again hc, nofun⟩
  | @offer t calls op =>
    obtain ⟨below, hoffer⟩ := t.exists_offer_eq base op
    rw [hoffer]
    exact ⟨h.sound.withBelow below, h.rests⟩

theorem Reaches.steady (hr : Reaches base c c') (h : c.Steady) : c'.Steady := by
  induction hr with
  | refl => exact h
  | tail _ hs ih => exact hs.steady ih

end Step

end Calling

end BytePatch
