import Mathlib.Logic.Relation
import BytePatch.Proofs.Queue.Polls
import BytePatch.Proofs.Threads.Termination

/-! The threads of a pool together with those who use it: refills are asked for one after another, ops
are taken and offered between them, and anyone may cancel at any time. A pool that is open and has no
worker to spare has a pair in its chain, so it comes to an empty chain only after the feed below has
come to its end. -/
namespace BytePatch

/-- What is sent by the next step of the thread that polls. -/
def Control.sends : Control → List Job
  | .submitting job => [job]
  | _ => []

/-- What is sent by the next step of a worker. -/
def Worker.sends : Worker → List (Nat × Reply)
  | .replying _ slot reply => [(slot, reply)]
  | _ => []

/-- What the next step of the thread that polls takes off the chain for good, with what it comes
to. -/
def Threads.passes {σ : Type} (t : Threads σ) : List (Link × Reply) :=
  match t.control, t.chain with
  | .popping, .op op :: _ => [(.op op, .ok [op])]
  | _, _ => []

/-- A pool in use, with a record of what its threads have done. -/
structure Service (σ : Type) where
  threads : Threads σ
  /-- All that was ever put in the chain. -/
  queued : List Link
  /-- All jobs that were sent to the workers. -/
  jobs : List Job
  /-- All answers that workers sent, each with its channel. -/
  sent : List (Nat × Reply)
  /-- All that was taken off the chain, with what it came to. -/
  came : List (Link × Reply)
  /-- The ops that were taken out of the pool. -/
  taken : List Op

namespace Service

variable {σ : Type}

def new (aligner : Aligner) (workers : Nat) (below : σ) : Service σ :=
  ⟨.new aligner workers below, [], [], [], [], []⟩

/-- One thread goes on, or someone makes use of the pool. What can be offered to the feed below, and
what it makes of it, is left open; a pool that is closed hands no offer on. -/
inductive Step (feed : Feed σ) (offers : σ → σ → Prop) : Service σ → Service σ → Prop
  | poll {s t} : (∀ slot, s.threads.control ≠ .receiving slot) → Threads.Polls feed s.threads t →
    Step feed offers s { s with
      threads := t
      queued := s.queued ++ t.chain.drop s.threads.chain.length
      jobs := s.jobs ++ s.threads.control.sends
      came := s.came ++ s.threads.passes }
  | receive {s slot reply front back} : s.threads.control = .receiving slot →
    s.threads.replies = front ++ (slot, reply) :: back →
    Step feed offers s { s with
      threads := Threads.answered { s.threads with replies := front ++ back } reply
      came := s.came ++ [(.awaited slot, reply)] }
  | work {s t front worker worker' back} : s.threads.workers = front ++ worker :: back →
    Threads.Works s.threads worker t worker' →
    Step feed offers s { s with
      threads := { t with workers := front ++ worker' :: back }
      sent := s.sent ++ worker.sends }
  | cancel {s} : Step feed offers s { s with threads := { s.threads with cancelled := true } }
  | refill {s answer} : s.threads.control = .returned answer →
    Step feed offers s { s with threads := { s.threads with control := .checking } }
  | take {s answer op ready} : s.threads.control = .returned answer →
    s.threads.buffers.ready = op :: ready →
    Step feed offers s { s with
      threads := { s.threads with buffers := { s.threads.buffers with ready } }
      taken := s.taken ++ [op] }
  | offer {s answer below} : s.threads.control = .returned answer → s.threads.isOpen = true →
    offers s.threads.below below →
    Step feed offers s { s with threads := { s.threads with below } }

/-- What comes of a pool by steps of all kinds in any order. -/
abbrev Reaches (feed : Feed σ) (offers : σ → σ → Prop) : Service σ → Service σ → Prop :=
  Relation.ReflTransGen (Step feed offers)

theorem exists_step_of_threads {feed : Feed σ} (offers : σ → σ → Prop) {s : Service σ}
    {t : Threads σ} (h : Threads.Step feed s.threads t) :
    ∃ s', Step feed offers s s' ∧ s'.threads = t := by
  cases h with
  | work hw hs => exact ⟨_, .work hw hs, rfl⟩
  | poll hs =>
    by_cases hc : ∀ slot, s.threads.control ≠ .receiving slot
    · exact ⟨_, .poll hc hs, rfl⟩
    · cases hs with
      | receive hc hr => exact ⟨_, .receive hc hr, rfl⟩
      | _ => simp_all

end Service

namespace Threads

variable {σ : Type} {feed : Feed σ} {t t' : Threads σ}

/-- Someone has cancelled, and the refill has been refused for it or is about to be. -/
def Barred (t : Threads σ) : Prop :=
  t.cancelled = true ∧
    (t.control = .checking ∨ ∃ fault, t.control = .joining (.error fault) ∨
      t.control = .returned (.error fault))

/-- Nothing is held back, and the feed below has nothing more. -/
def Finished (feed : Feed σ) (t : Threads σ) : Prop :=
  t.buffers.pending = [] ∧ feed.Exhausted t.below

/-- What is true of a pool in use at all times. -/
structure Guarded (feed : Feed σ) (t : Threads σ) : Prop where
  sound : t.Sound
  busy_le : t.busy ≤ t.workers.length
  spare : t.control = .giving → t.busy < t.workers.length
  closed : t.isOpen = false → t.Finished feed ∨ t.Barred
  /-- Only a closed pool can come to the end of its chain. -/
  filled : t.control = .popping → t.isOpen = false ∨ t.chain ≠ []

theorem guarded_new (aligner : Aligner) {workers : Nat} (h : 0 < workers) (below : σ) :
    (new aligner workers below).Guarded feed where
  sound := sound_new aligner h below
  busy_le := Nat.zero_le _
  spare := nofun
  closed := nofun
  filled := nofun

/-- Before the first look each busy worker has its pair in the chain. -/
theorem Sound.busy_le_chain (h : t.Sound) (hc : t.control = .checking ∨ t.control = .looking) :
    t.busy ≤ (t.chain.filterMap Link.slot?).length := by
  have := h.busy_le
  obtain hc | hc := hc <;> simpa [awaited, hc, Control.slot?, Control.unsent] using this

theorem Sound.chain_ne_nil (h : t.Sound) (hc : t.control = .looking)
    (hbusy : ¬ t.busy < t.workers.length) : t.chain ≠ [] := by
  have hle := h.busy_le_chain (.inr hc)
  have hpos := List.length_pos_iff.2 h.staffed
  rintro hnil
  rw [hnil] at hle
  simp only [List.filterMap_nil, List.length_nil] at hle
  omega

theorem Guarded.finished (h : t.Guarded feed) (hc : t.control = .popping) (hchain : t.chain = []) :
    t.Finished feed := by
  have hclosed := (h.filled hc).resolve_right (not_not_intro hchain)
  refine (h.closed hclosed).resolve_right ?_
  rintro ⟨-, hbarred⟩
  simp [hc] at hbarred

private theorem busy_le_poll (h : t.Guarded feed) (hs : Polls feed t t') :
    t'.busy ≤ t'.workers.length := by
  cases hs with
  | count hc => exact h.spare hc
  | @receive slot reply => cases reply <;> exact h.busy_le
  | _ => exact h.busy_le

private theorem closed_poll (h : t.Guarded feed) (hs : Polls feed t t') (hclosed : t'.isOpen = false) :
    t'.Finished feed ∨ t'.Barred := by
  -- A step that leaves the pool open or closed as it was, and is not made on the way out of a
  -- cancelled refill, starts from a pool that has seen the end.
  have kept (hbarred : ¬ t.Barred) (hopen : t.isOpen = false) : t.Finished feed :=
    (h.closed hopen).resolve_right hbarred
  have hplaced := h.sound.placed
  cases hs with
  | cancel hc hk => exact .inr ⟨hk, .inr ⟨.cancelled, .inl rfl⟩⟩
  | proceed hc hk => exact .inl (kept (by simp [Barred, hk]) hclosed)
  | spare hc hopen => exact absurd hclosed (by simp [hopen])
  | enough hc => exact .inl (kept (by simp [Barred, hc]) hclosed)
  | fail hc => exact absurd hclosed (by simpa [Placed, hc] using hplaced)
  | single hc => exact absurd hclosed (by simpa [Placed, hc] using hplaced)
  | count hc => exact absurd hclosed (by simpa [Placed, hc] using hplaced)
  | submit hc => exact absurd hclosed (by simp [Placed, hc] at hplaced; simp [hplaced.1])
  | @close pending below hc hr =>
    obtain ⟨answers, hpolls, -, hend⟩ := feed.polls_require 2 t.buffers.pending t.below
    rw [hr] at hpolls hend
    exact .inl ⟨rfl, hpolls.exhausted hend.2.1⟩
  | dry hc => exact .inl (kept (by simp [Barred, hc]) hclosed)
  | pop hc => exact .inl (kept (by simp [Barred, hc]) hclosed)
  | await hc => exact .inl (kept (by simp [Barred, hc]) hclosed)
  | @receive slot reply front back hc hr =>
    refine .inl ?_
    cases reply <;> exact kept (by simp [Barred, hc]) hclosed
  | join hc => exact .inl (kept (by simp [Barred, hc]) hclosed)
  | quit hc =>
    refine (h.closed hclosed).imp id fun hbarred => ⟨hbarred.1, .inr ⟨_, .inr rfl⟩⟩

private theorem filled_poll (h : t.Guarded feed) (hs : Polls feed t t') (hc' : t'.control = .popping) :
    t'.isOpen = false ∨ t'.chain ≠ [] := by
  cases hs with
  | enough hc hn =>
    by_cases hopen : t.isOpen = true
    · exact .inr (h.sound.chain_ne_nil hc fun hbusy => hn ⟨hopen, hbusy⟩)
    · exact .inl (by simpa using hopen)
  | join hc => exact .inl (by simpa [Placed, hc] using h.sound.placed)
  | @receive slot reply front back =>
    cases reply with
    | error fault => cases hc'
    | ok script =>
      simp only [answered] at hc'
      split at hc' <;> cases hc'
  | _ => cases hc'

private theorem spare_poll (hs : Polls feed t t') (hc' : t'.control = .giving) :
    t'.busy < t'.workers.length := by
  cases hs with
  | spare _ _ hbusy => exact hbusy
  | @receive slot reply front back =>
    cases reply with
    | error fault => cases hc'
    | ok script =>
      simp only [answered] at hc'
      split at hc' <;> cases hc'
  | _ => cases hc'

theorem Guarded.poll (h : t.Guarded feed) (hs : Polls feed t t') : t'.Guarded feed where
  sound := h.sound.poll hs
  busy_le := busy_le_poll h hs
  spare := spare_poll hs
  closed := closed_poll h hs
  filled := filled_poll h hs

private theorem Works.busy_le {worker worker' : Worker} (h : Works t worker t' worker') :
    t'.busy ≤ t.busy := by
  cases h with
  | finish => exact Nat.sub_le _ _
  | _ => exact Nat.le_refl _

theorem Guarded.work (h : t.Guarded feed) {worker worker' : Worker} {front back : List Worker}
    (hs : Works t worker t' worker') (hw : t.workers = front ++ worker :: back) :
    Guarded feed { t' with workers := front ++ worker' :: back } := by
  have ha := hs.apart (front ++ worker' :: back)
  have hlen : (front ++ worker' :: back).length = t.workers.length := by simp [hw]
  refine ⟨h.sound.work hs hw, ?_, fun hc => ?_, fun hclosed => ?_, fun hc => ?_⟩
  · exact Nat.le_trans hs.busy_le (hlen ▸ h.busy_le)
  · rw [ha.control] at hc
    exact Nat.lt_of_le_of_lt hs.busy_le (hlen ▸ h.spare hc)
  · rw [ha.isOpen] at hclosed
    rw [Finished, Barred, ha.buffers, ha.below, ha.cancelled, ha.control]
    exact h.closed hclosed
  · rw [ha.control] at hc
    rw [ha.isOpen, ha.chain]
    exact h.filled hc

/-- A refill that leaves nothing ready, and is not refused, has come to the end of everything. -/
theorem Guarded.ended (h : t.Guarded feed) (hs : Polls feed t t')
    (hc' : t'.control = .returned (.ok ())) (hready : t'.buffers.ready = []) :
    t'.chain = [] ∧ t'.Finished feed := by
  cases hs with
  | dry hc hchain => exact ⟨hchain, h.finished hc hchain⟩
  | pop => simp [Buffers.pushReady] at hready
  | @receive slot reply front back =>
    cases reply with
    | error fault => cases hc'
    | ok script =>
      simp only [answered] at hc' hready
      simp [hready] at hc'
  | _ => cases hc'

end Threads

namespace Service

variable {σ : Type} {feed : Feed σ} {offers : σ → σ → Prop} {s s' : Service σ}

theorem Step.guarded (hs : Step feed offers s s') (h : s.threads.Guarded feed) :
    s'.threads.Guarded feed := by
  cases hs with
  | poll _ hs => exact h.poll hs
  | receive hc hr => exact h.poll (.receive hc hr)
  | work hw hs => exact h.work hs hw
  | cancel =>
    refine ⟨h.sound.withCancelled true, h.busy_le, h.spare, fun hclosed => ?_, h.filled⟩
    exact (h.closed hclosed).imp id fun hbarred => ⟨rfl, hbarred.2⟩
  | refill hc =>
    refine ⟨h.sound.again hc, h.busy_le, nofun, fun hclosed => ?_, nofun⟩
    exact (h.closed hclosed).imp id fun hbarred => ⟨hbarred.1, .inl rfl⟩
  | take hc hready =>
    exact ⟨h.sound.withReady _, h.busy_le, h.spare, h.closed, h.filled⟩
  | offer hc hopen ho =>
    refine ⟨h.sound.withBelow _, h.busy_le, h.spare, fun hclosed => ?_, h.filled⟩
    exact absurd hclosed (by simp [hopen])

theorem Reaches.guarded {aligner : Aligner} {workers : Nat} (hw : 0 < workers) {below : σ}
    (h : Reaches feed offers (new aligner workers below) s) : s.threads.Guarded feed := by
  induction h with
  | refl => exact Threads.guarded_new aligner hw below
  | tail _ hs ih => exact hs.guarded ih

end Service

end BytePatch
