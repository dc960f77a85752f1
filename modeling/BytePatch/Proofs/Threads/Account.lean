import BytePatch.Proofs.Threads.Progress
import BytePatch.Proofs.Threads.Service

/-! The record of a pool in use adds up. What comes off the chain comes in the order in which it went
on, each job with the one answer that a worker sent for it, and what stands ready is what these
answers brought. -/
namespace BytePatch

/-- The answer that came off the chain, with its channel. -/
def Link.answer? : Link × Reply → Option (Nat × Reply)
  | (.op _, _) => none
  | (.awaited slot, reply) => some (slot, reply)

/-- The ops that an answer brings. -/
def Reply.ops : Reply → List Op
  | .ok script => script
  | .error _ => []

/-- The channel of the job that a worker has. -/
def Worker.slot? : Worker → Option Nat
  | .working _ job => some job.slot
  | .finished _ slot _ | .replying _ slot _ => some slot
  | .waiting _ | .gone => none

namespace Threads

variable {σ : Type} {feed : Feed σ} {t t' : Threads σ}

/-- The channels of the jobs that no worker has answered yet. -/
def unanswered (t : Threads σ) : List Nat := t.jobs.map Job.slot ++ t.workers.filterMap Worker.slot?

/-- What stands in the chain, behind what is waited for at its front. -/
def links (t : Threads σ) : List Link := t.control.slot?.toList.map .awaited ++ t.chain

theorem slots_dues (t : Threads σ) :
    t.dues.map Prod.fst = t.unanswered ++ t.replies.map Prod.fst := by
  have hworker (worker : Worker) :
      (worker.due? t.aligner).map Prod.fst = worker.slot? := by cases worker <;> rfl
  simp [dues, unanswered, List.map_filterMap, hworker, Job.due, Function.comp_def]

theorem slots_links (t : Threads σ) : t.links.filterMap Link.slot? = t.awaited := by
  rw [links, awaited, List.filterMap_append]
  cases t.control.slot? <;> rfl

/-- What a step puts behind the chain, and what it takes off in front. -/
theorem Polls.links (hs : Polls feed t t') (hc : ∀ slot, t.control ≠ .receiving slot) :
    t.links ++ t'.chain.drop t.chain.length = t.passes.map Prod.fst ++ t'.links := by
  cases hs <;> simp_all [Threads.links, passes, Control.slot?]

theorem Polls.submitted (hs : Polls feed t t') (h : t.Sound) :
    List.range t'.submitted = List.range t.submitted ++ t.control.sends.map Job.slot := by
  have hplaced := h.placed
  cases hs with
  | submit hc =>
    simp only [Placed, hc] at hplaced
    simp [hc, Control.sends, List.range_succ, hplaced.2.1]
  | @receive slot reply front back hc => cases reply <;> simp [hc, Control.sends, answered]
  | _ hc => simp [hc, Control.sends]

theorem Polls.slots (hs : Polls feed t t') :
    (t'.chain.drop t.chain.length).filterMap Link.slot? = t.control.sends.map Job.slot := by
  cases hs with
  | @receive slot reply front back hc => cases reply <;> simp [hc, Control.sends, answered]
  | pop hc hchain | await hc hchain => simp [hc, hchain, Control.sends, List.drop_of_length_le]
  | _ => simp_all [Control.sends, Link.slot?, List.filterMap_map, Function.comp_def]

theorem Polls.ready (hs : Polls feed t t') (hc : ∀ slot, t.control ≠ .receiving slot) :
    t'.buffers.ready = t.buffers.ready ++ t.passes.flatMap (·.2.ops) := by
  cases hs <;> simp_all [passes, Buffers.pushReady, Reply.ops]

theorem links_answered (t : Threads σ) (reply : Reply) : (t.answered reply).links = t.chain := by
  cases reply with
  | error fault => rfl
  | ok script =>
    simp only [answered, links]
    split <;> rfl

theorem replies_answered (t : Threads σ) (reply : Reply) :
    (t.answered reply).replies = t.replies := by
  cases reply <;> rfl

/-- Nothing is due that was not due before an answer was received. -/
theorem dues_answered {slot : Nat} {reply : Reply} {front back : List (Nat × Reply)}
    (hr : t.replies = front ++ (slot, reply) :: back) {due : Nat × Reply}
    (hm : due ∈ (answered { t with replies := front ++ back } reply).dues) : due ∈ t.dues := by
  have hkept : due ∈ ({ t with replies := front ++ back } : Threads σ).dues := by
    cases reply <;> exact hm
  simp only [dues, hr, List.mem_append, List.mem_cons] at hkept ⊢
  tauto

theorem Polls.dues (hs : Polls feed t t') {due : Nat × Reply} (hm : due ∈ t'.dues) :
    due ∈ t.dues ∨ ∃ job ∈ t.control.sends, due = job.due t.aligner := by
  cases hs with
  | submit hc =>
    simp only [Threads.dues, List.map_append, List.mem_append, List.map_cons, List.map_nil,
      List.mem_singleton] at hm
    simp only [hc, Threads.dues, List.mem_append, Control.sends, List.mem_singleton,
      exists_eq_left]
    tauto
  | receive hc hr => exact .inl (dues_answered hr hm)
  | _ => exact .inl hm

theorem answers_passes (t : Threads σ) : t.passes.filterMap Link.answer? = [] := by
  unfold passes
  split <;> rfl

section Work

variable {worker worker' : Worker} {front back : List Worker}

theorem Works.replies (hs : Works t worker t' worker') :
    t'.replies = t.replies ++ worker.sends := by
  cases hs <;> simp [Worker.sends]

theorem Works.sends (hw : t.workers = front ++ worker :: back) {due : Nat × Reply}
    (hm : due ∈ worker.sends) : due ∈ t.dues := by
  cases worker with
  | replying graph? slot reply =>
    cases List.mem_singleton.1 hm
    simp [dues, hw]
  | _ => cases hm

/-- An answer that is due stays what it was, unless the job is refused because someone cancelled. -/
theorem Works.dues (hs : Works t worker t' worker') (h : t.Sound)
    (hw : t.workers = front ++ worker :: back) {due : Nat × Reply}
    (hm : due ∈ ({ t' with workers := front ++ worker' :: back } : Threads σ).dues) :
    due ∈ t.dues ∨ t.cancelled = true ∧ ∃ job : Job, job.due t.aligner ∈ t.dues ∧
      due = (job.slot, .error .cancelled) := by
  by_cases hgoing : ∀ graph? job, worker = .working graph? job → t.cancelled = false
  · exact .inl ((dues_work h hgoing hs hw).mem_iff.1 hm)
  push Not at hgoing
  obtain ⟨graph?, job, rfl, hk⟩ := hgoing
  cases hs with
  | compare hgoing => exact absurd hgoing hk
  | refuse hc =>
    have hold : job.due t.aligner ∈ t.dues := by simp [Threads.dues, hw]
    simp only [Threads.dues, List.filterMap_append, List.filterMap_cons, List.mem_append,
      List.mem_cons, Worker.due?_finished] at hm
    obtain (hm | hm | rfl | hm) | hm := hm
    · exact .inl (by simp only [Threads.dues, List.mem_append, hm, true_or])
    · exact .inl (by simp only [Threads.dues, hw, List.filterMap_append, List.mem_append, hm,
        true_or, or_true])
    · exact .inr ⟨hc, job, hold, rfl⟩
    · refine .inl ?_
      simp only [Threads.dues, hw, List.filterMap_append, List.filterMap_cons, List.mem_append,
        Worker.due?_working, List.mem_cons, hm, true_or, or_true]
    · exact .inl (by simp only [Threads.dues, List.mem_append, hm, or_true])

end Work

/-- If no thread can go on, no job is left. -/
theorem Sound.unanswered_eq_nil (h : t.Sound) (hstuck : ∀ t', ¬ Step feed t t') :
    t.unanswered = [] := by
  have stuck {worker : Worker} (hm : worker ∈ t.workers) (hgone : worker ≠ .gone)
      (hjob : t.jobs ≠ [] ∨ worker.due? t.aligner ≠ none ∨ t.isOpen = false) : False := by
    obtain ⟨t', hs⟩ : ∃ t', Step feed t t' := step_of_worker hm hgone hjob
    exact hstuck t' hs
  have hjobs : t.jobs = [] := by
    by_contra hne
    obtain ⟨worker, hm⟩ := List.exists_mem_of_ne_nil _ h.staffed
    refine stuck hm ?_ (.inl hne)
    rintro rfl
    exact hne (h.gone hm).2
  rw [unanswered, hjobs, List.map_nil, List.nil_append, List.filterMap_eq_nil_iff]
  intro worker hm
  cases worker with
  | waiting | gone => rfl
  | _ => exact (stuck hm (by simp) (.inr (.inl (by simp)))).elim

end Threads

namespace Service

variable {σ : Type} {feed : Feed σ} {offers : σ → σ → Prop} {aligner : Aligner} {workers : Nat}
  {s s' : Service σ}

/-- An answer is the script of the job on its channel, or says that someone has cancelled. -/
def Settles (s : Service σ) (due : Nat × Reply) : Prop :=
  ∃ job ∈ s.jobs, job.slot = due.1 ∧
    (due.2 = s.threads.aligner.align job.orig job.target ∨
      due.2 = .error .cancelled ∧ s.threads.cancelled = true)

/-- How the record of a pool fits what its threads have in hand. -/
structure Accounts (s : Service σ) : Prop where
  inTurn : s.queued = s.came.map Prod.fst ++ s.threads.links
  numbered : s.jobs.map Job.slot = List.range s.threads.submitted
  placed : s.queued.filterMap Link.slot? = List.range s.threads.submitted
  received : s.sent.Perm (s.came.filterMap Link.answer? ++ s.threads.replies)
  own : ∀ due ∈ s.sent ++ s.threads.dues, s.Settles due
  spliced : s.taken ++ s.threads.buffers.ready = s.came.flatMap (·.2.ops)

theorem accounts_new (aligner : Aligner) (workers : Nat) (below : σ) :
    (new aligner workers below).Accounts where
  inTurn := rfl
  numbered := rfl
  placed := rfl
  received := .nil
  own := by simp [new, Threads.new, Threads.dues]
  spliced := rfl

theorem Settles.mono {due : Nat × Reply} (h : s.Settles due) (hjobs : ∀ job ∈ s.jobs, job ∈ s'.jobs)
    (haligner : s'.threads.aligner = s.threads.aligner)
    (hcancelled : s.threads.cancelled = true → s'.threads.cancelled = true) : s'.Settles due := by
  obtain ⟨job, hm, hslot, hreply⟩ := h
  rw [← haligner] at hreply
  exact ⟨job, hjobs job hm, hslot, hreply.imp id fun h => ⟨h.1, hcancelled h.2⟩⟩

/-- Nobody changes the aligner by a step, or takes back that someone has cancelled. -/
theorem Step.keeps (hs : Step feed offers s s') :
    s'.threads.aligner = s.threads.aligner ∧
      s'.threads.workers.length = s.threads.workers.length ∧
      (s.threads.cancelled = true → s'.threads.cancelled = true) := by
  cases hs with
  | poll hc hs =>
    obtain ⟨haligner, hworkers, hcancelled⟩ := hs.kept
    exact ⟨haligner, congrArg List.length hworkers, hcancelled.trans⟩
  | @receive slot reply => cases reply <;> exact ⟨rfl, rfl, id⟩
  | work hw hs =>
    have ha := hs.apart []
    exact ⟨ha.aligner, by simp [hw], ha.cancelled.trans⟩
  | cancel => exact ⟨rfl, rfl, fun _ => rfl⟩
  | _ => exact ⟨rfl, rfl, id⟩

theorem Accounts.poll (h : s.Accounts) (hsound : s.threads.Sound) {t : Threads σ}
    (hc : ∀ slot, s.threads.control ≠ .receiving slot) (hs : Threads.Polls feed s.threads t) :
    Accounts { s with
      threads := t
      queued := s.queued ++ t.chain.drop s.threads.chain.length
      jobs := s.jobs ++ s.threads.control.sends
      came := s.came ++ s.threads.passes } where
  inTurn := by
    rw [h.inTurn, List.append_assoc, hs.links hc, List.map_append, List.append_assoc]
  numbered := by rw [List.map_append, h.numbered, hs.submitted hsound]
  placed := by rw [List.filterMap_append, h.placed, hs.slots, hs.submitted hsound]
  received := by
    have hreplies : t.replies = s.threads.replies := by cases hs <;> simp_all
    rw [List.filterMap_append, Threads.answers_passes, List.append_nil, hreplies]
    exact h.received
  own due hm := by
    obtain ⟨haligner, -, hcancelled⟩ := hs.kept
    by_cases hold : due ∈ s.sent ++ s.threads.dues
    · exact (h.own due hold).mono (fun job hj => List.mem_append_left _ hj) haligner
        hcancelled.trans
    · have hm := (List.mem_append.1 hm).resolve_left fun hm => hold (List.mem_append_left _ hm)
      obtain ⟨job, hj, rfl⟩ := (hs.dues hm).resolve_left fun hm =>
        hold (List.mem_append_right _ hm)
      exact ⟨job, List.mem_append_right _ hj, rfl, .inl (by rw [haligner]; rfl)⟩
  spliced := by rw [hs.ready hc, ← List.append_assoc, h.spliced, List.flatMap_append]

theorem Accounts.receive (h : s.Accounts) {slot : Nat} {reply : Reply}
    {front back : List (Nat × Reply)} (hc : s.threads.control = .receiving slot)
    (hr : s.threads.replies = front ++ (slot, reply) :: back) :
    Accounts { s with
      threads := Threads.answered { s.threads with replies := front ++ back } reply
      came := s.came ++ [(.awaited slot, reply)] } where
  inTurn := by
    have hlinks : s.threads.links = .awaited slot :: s.threads.chain := by
      simp [Threads.links, hc, Control.slot?]
    rw [h.inTurn, hlinks, Threads.links_answered]
    simp
  numbered := by cases reply <;> exact h.numbered
  placed := by cases reply <;> exact h.placed
  received := by
    have hreceived := h.received
    rw [hr] at hreceived
    rw [Threads.replies_answered]
    refine hreceived.trans ?_
    simp only [List.filterMap_append, List.filterMap_cons, List.filterMap_nil, Link.answer?,
      List.append_assoc, List.singleton_append]
    exact List.perm_middle.append_left _
  own due hm := by
    have hold : due ∈ s.sent ++ s.threads.dues :=
      (List.mem_append.1 hm).elim (List.mem_append_left _) fun hm =>
        List.mem_append_right _ (Threads.dues_answered hr hm)
    cases reply <;> exact (h.own due hold).mono (fun _ hj => hj) rfl id
  spliced := by cases reply <;> simp [Threads.answered, h.spliced, Reply.ops, ← List.append_assoc]

theorem Accounts.work (h : s.Accounts) (hsound : s.threads.Sound) {t : Threads σ}
    {worker worker' : Worker} {front back : List Worker}
    (hw : s.threads.workers = front ++ worker :: back)
    (hs : Threads.Works s.threads worker t worker') :
    Accounts { s with
      threads := { t with workers := front ++ worker' :: back }
      sent := s.sent ++ worker.sends } := by
  have ha := hs.apart (front ++ worker' :: back)
  have hlinks : Threads.links { t with workers := front ++ worker' :: back } = s.threads.links := by
    rw [Threads.links, ha.control, ha.chain, Threads.links]
  exact {
    inTurn := hlinks ▸ h.inTurn
    numbered := ha.submitted ▸ h.numbered
    placed := ha.submitted ▸ h.placed
    received := by
      rw [hs.replies, ← List.append_assoc]
      exact h.received.append_right _
    own := fun due hm => by
      by_cases hold : due ∈ s.sent ++ s.threads.dues
      · exact (h.own due hold).mono (fun _ hj => hj) ha.aligner ha.cancelled.trans
      · have hm := (List.mem_append.1 hm).resolve_left fun hm => hold <|
          (List.mem_append.1 hm).elim (List.mem_append_left _) fun hm =>
            List.mem_append_right _ (Threads.Works.sends hw hm)
        obtain ⟨hk, job, hjob, rfl⟩ := (hs.dues hsound hw hm).resolve_left fun hm =>
          hold (List.mem_append_right _ hm)
        obtain ⟨known, hm, hslot, -⟩ := h.own _ (List.mem_append_right _ hjob)
        exact ⟨known, hm, hslot, .inr ⟨rfl, ha.cancelled.trans hk⟩⟩
    spliced := ha.buffers ▸ h.spliced }

theorem Step.accounts (hs : Step feed offers s s') (hsound : s.threads.Sound) (h : s.Accounts) :
    s'.Accounts := by
  cases hs with
  | poll hc hs => exact h.poll hsound hc hs
  | receive hc hr => exact h.receive hc hr
  | work hw hs => exact h.work hsound hw hs
  | cancel =>
    refine ⟨h.inTurn, h.numbered, h.placed, h.received, fun due hm => ?_, h.spliced⟩
    exact (h.own due hm).mono (fun _ hj => hj) rfl fun _ => rfl
  | @refill answer hc =>
    have hlinks : Threads.links { s.threads with control := .checking } = s.threads.links := by
      simp [Threads.links, hc, Control.slot?]
    exact ⟨hlinks ▸ h.inTurn, h.numbered, h.placed, h.received, h.own, h.spliced⟩
  | @take answer op ready hc hready =>
    refine ⟨h.inTurn, h.numbered, h.placed, h.received, h.own, ?_⟩
    rw [← h.spliced, hready, List.append_assoc, List.singleton_append]
  | offer => exact ⟨h.inTurn, h.numbered, h.placed, h.received, h.own, h.spliced⟩

/-- Every channel has been answered or is still to be answered, and none of them twice. -/
theorem Accounts.once (h : s.Accounts) (hsound : s.threads.Sound) :
    (s.sent.map Prod.fst ++ s.threads.unanswered).Perm (List.range s.threads.submitted) := by
  have hanswer (come : Link × Reply) : (Link.answer? come).map Prod.fst = come.1.slot? := by
    obtain ⟨link, reply⟩ := come
    cases link <;> rfl
  have hcame : (s.came.filterMap Link.answer?).map Prod.fst =
      (s.came.map Prod.fst).filterMap Link.slot? := by
    simp [List.map_filterMap, List.filterMap_map, hanswer]
  have howed := hsound.owed
  rw [Threads.slots_dues] at howed
  rw [← h.placed, h.inTurn, List.filterMap_append, Threads.slots_links, ← hcame]
  have hsent := (h.received.map Prod.fst).append_right s.threads.unanswered
  rw [List.map_append, List.append_assoc] at hsent
  exact hsent.trans ((List.perm_append_comm.trans howed).append_left _)

end Service

end BytePatch
