import Mathlib.Data.List.Perm.Basic
import BytePatch.Stage.Threads

/-! What the threads of a pool owe each other. Each channel that is waited on has just one answer on
its way, as a job, with a worker or sent already; the workers counted as busy are those that have a
job, together with the jobs that no worker has taken yet. -/
namespace BytePatch

/-- The answer to a job, with its channel. -/
def Job.due (job : Job) (aligner : Aligner) : Nat × Reply :=
  (job.slot, aligner.align job.orig job.target)

/-- The answer a worker is to send, with its channel. -/
def Worker.due? (worker : Worker) (aligner : Aligner) : Option (Nat × Reply) :=
  match worker with
  | .working _ job => some (job.due aligner)
  | .finished _ slot reply | .replying _ slot reply => some (slot, reply)
  | .waiting _ | .gone => none

namespace Worker
variable (aligner : Aligner) (graph? : Option Graph)

@[simp] theorem due?_waiting : (waiting graph?).due? aligner = none := rfl

@[simp] theorem due?_working (job : Job) :
    (working graph? job).due? aligner = some (job.due aligner) := rfl

@[simp] theorem due?_finished (slot : Nat) (reply : Reply) :
    (finished graph? slot reply).due? aligner = some (slot, reply) := rfl

@[simp] theorem due?_replying (slot : Nat) (reply : Reply) :
    (replying graph? slot reply).due? aligner = some (slot, reply) := rfl

@[simp] theorem due?_gone : gone.due? aligner = none := rfl

end Worker

def Link.slot? : Link → Option Nat
  | .op _ => none
  | .awaited slot => some slot

namespace Control

def slot? : Control → Option Nat
  | .receiving slot => some slot
  | _ => none

/-- Number of jobs that are counted and have not been sent. -/
def unsent : Control → Nat
  | .submitting _ => 1
  | _ => 0

end Control

/-- A graph compares as its aligner does, whatever it was used for before. -/
theorem Graph.align_eq (graph : Graph) (orig target : Bytes) :
    (graph.align orig target).1 = graph.aligner.align orig target ∧
      (graph.align orig target).2.aligner = graph.aligner := by
  rw [align, compute, Aligner.align]
  cases graph.aligner.checkCapacity orig target with
  | error fault => exact ⟨rfl, rfl⟩
  | ok _ =>
    refine ⟨?_, rfl⟩
    simp [scriptBack, script, Functor.map, Except.map]

namespace Threads

variable {σ : Type}

/-- All answers on their way. -/
def dues (t : Threads σ) : List (Nat × Reply) :=
  t.jobs.map (·.due t.aligner) ++ t.workers.filterMap (·.due? t.aligner) ++ t.replies

/-- The channels that are waited on, or will be. -/
def awaited (t : Threads σ) : List Nat := t.control.slot?.toList ++ t.chain.filterMap Link.slot?

/-- What is true where the thread that polls is. -/
def Placed (t : Threads σ) : Prop :=
  match t.control with
  | .giving => t.isOpen = true
  | .submitting job => t.isOpen = true ∧ job.slot = t.submitted ∧
    ∃ a b pending, t.buffers.pending = a :: b :: pending ∧
      a.pair? b = some (job.orig, job.target)
  | .joining _ => t.isOpen = false
  | _ => True

/-- What is true of the threads of a pool at all times, cancelled or not. -/
structure Sound (t : Threads σ) : Prop where
  staffed : t.workers ≠ []
  fitted : ∀ worker ∈ t.workers, ∀ graph, worker.graph? = some graph → graph.aligner = t.aligner
  owed : (t.dues.map Prod.fst).Perm t.awaited
  nodup : t.awaited.Nodup
  fresh : ∀ slot ∈ t.awaited, slot < t.submitted
  busy_eq : t.busy = t.jobs.length + t.workers.countP Worker.isBusy + t.control.unsent
  /-- No worker goes while there may be jobs. -/
  gone : .gone ∈ t.workers → t.isOpen = false ∧ t.jobs = []
  placed : t.Placed

theorem sound_new (aligner : Aligner) {workers : Nat} (h : 0 < workers) (below : σ) :
    (new aligner workers below).Sound where
  staffed := by simpa [new, List.replicate_eq_nil_iff] using Nat.ne_of_gt h
  fitted worker hm graph hg := by
    obtain ⟨-, rfl⟩ := List.mem_replicate.1 hm
    cases hg
  owed := by simp [dues, awaited, new, Control.slot?]
  nodup := List.nodup_nil
  fresh := nofun
  busy_eq := by simp [new, List.countP_replicate, Worker.isBusy, Control.unsent]
  gone h := by simp [new] at h
  placed := trivial

private theorem countP_isBusy_le (aligner : Aligner) (workers : List Worker) :
    workers.countP Worker.isBusy ≤ (workers.filterMap (·.due? aligner)).length := by
  induction workers with
  | nil => exact Nat.le_refl _
  | cons worker workers ih =>
    cases worker <;> simp [List.countP_cons, List.filterMap_cons, Worker.isBusy] <;> omega

/-- There are no more busy workers than channels waited on. -/
theorem Sound.busy_le {t : Threads σ} (h : t.Sound) :
    t.busy ≤ t.awaited.length + t.control.unsent := by
  have hlen := h.owed.length_eq
  have hbusy := countP_isBusy_le t.aligner t.workers
  have := h.busy_eq
  simp only [dues, List.length_map, List.length_append] at hlen
  omega

section Poll

variable {feed : Feed σ} {t t' : Threads σ}

/-- Nothing has changed that the workers have a part in. -/
private structure Beside (t t' : Threads σ) : Prop where
  aligner : t'.aligner = t.aligner
  workers : t'.workers = t.workers
  jobs : t'.jobs = t.jobs
  replies : t'.replies = t.replies
  busy : t'.busy = t.busy
  submitted : t'.submitted = t.submitted
  awaited : t'.awaited = t.awaited
  unsent : t'.control.unsent = t.control.unsent
  isOpen : t.isOpen = false → t'.isOpen = false

private theorem Sound.beside (h : t.Sound) (hb : Beside t t') (hp : t'.Placed) : t'.Sound where
  staffed := hb.workers ▸ h.staffed
  fitted := by
    rw [hb.workers, hb.aligner]
    exact h.fitted
  owed := by
    rw [hb.awaited, dues, hb.aligner, hb.workers, hb.jobs, hb.replies]
    exact h.owed
  nodup := hb.awaited ▸ h.nodup
  fresh := by
    rw [hb.awaited, hb.submitted]
    exact h.fresh
  busy_eq := by
    rw [hb.busy, hb.jobs, hb.workers, hb.unsent]
    exact h.busy_eq
  gone hg := by
    rw [hb.workers] at hg
    exact ⟨hb.isOpen (h.gone hg).1, hb.jobs.trans (h.gone hg).2⟩
  placed := hp

private theorem Sound.counted (h : t.Sound) (hc : t.control = .giving) {a b : Op}
    {pending : List Op} {below : σ} {orig target : Bytes} (hp : a.pair? b = some (orig, target)) :
    Sound { t with
      buffers := { t.buffers with pending := a :: b :: pending }
      below
      busy := t.busy + 1
      control := .submitting ⟨orig, target, t.submitted⟩ } where
  staffed := h.staffed
  fitted := h.fitted
  owed := by simpa [dues, awaited, hc, Control.slot?] using h.owed
  nodup := by simpa [awaited, hc, Control.slot?] using h.nodup
  fresh := by simpa [awaited, hc, Control.slot?] using h.fresh
  busy_eq := by simpa [hc, Control.unsent] using h.busy_eq
  gone := h.gone
  placed := ⟨by simpa [Placed, hc] using h.placed, rfl, a, b, pending, rfl, hp⟩

private theorem Sound.submitted (h : t.Sound) {job : Job} (hc : t.control = .submitting job) :
    Sound { t with
      jobs := t.jobs ++ [job]
      submitted := t.submitted + 1
      buffers := { t.buffers with pending := t.buffers.pending.drop 2 }
      chain := t.chain ++ [.awaited job.slot]
      control := .looking } := by
  obtain ⟨hopen, hslot, -⟩ : t.isOpen = true ∧ job.slot = t.submitted ∧ _ := by
    simpa [Placed, hc] using h.placed
  have haw : t.awaited = t.chain.filterMap Link.slot? := by simp [awaited, hc, Control.slot?]
  have hnew : [] ++ (t.chain ++ [Link.awaited job.slot]).filterMap Link.slot? =
      t.awaited ++ [t.submitted] := by
    simp [haw, hslot, Link.slot?]
  have hdues : ((t.jobs ++ [job]).map (·.due t.aligner) ++
      t.workers.filterMap (·.due? t.aligner) ++ t.replies).Perm
        (t.dues ++ [job.due t.aligner]) := by
    simp only [dues, List.map_append, List.append_assoc]
    exact (List.perm_append_comm.trans (.of_eq (List.append_assoc _ _ _))).append_left _
  refine ⟨h.staffed, h.fitted, ?_, ?_, ?_, ?_, ?_, trivial⟩
  · refine ((hdues.map Prod.fst).trans ?_).trans (.of_eq hnew.symm)
    rw [List.map_append, ← hslot]
    exact h.owed.append_right [job.slot]
  · refine (List.Perm.of_eq hnew).nodup_iff.2 (List.nodup_append.2 ⟨h.nodup, by simp, ?_⟩)
    rintro slot hm _ hlast rfl
    have := h.fresh slot hm
    simp only [List.mem_singleton] at hlast
    omega
  · intro slot hm
    have hm : slot ∈ t.awaited ++ [t.submitted] := by
      rw [← hnew]
      exact hm
    rcases List.mem_append.1 hm with hm | hm
    · exact Nat.lt_succ_of_lt (h.fresh slot hm)
    · exact Nat.lt_succ_of_le (Nat.le_of_eq (List.mem_singleton.1 hm))
  · have := h.busy_eq
    simp [hc, Control.unsent] at this ⊢
    omega
  · intro hg
    rw [(h.gone hg).1] at hopen
    cases hopen

private theorem Sound.received (h : t.Sound) {slot : Nat} (hc : t.control = .receiving slot)
    {reply : Reply} {front back : List (Nat × Reply)}
    (hr : t.replies = front ++ (slot, reply) :: back) :
    Sound (answered { t with replies := front ++ back } reply) := by
  have haw : t.awaited = slot :: t.chain.filterMap Link.slot? := by
    simp [awaited, hc, Control.slot?]
  have hdues : t.dues.Perm
      ((slot, reply) :: ({ t with replies := front ++ back } : Threads σ).dues) := by
    simp only [dues, hr, ← List.append_assoc]
    exact List.perm_middle
  have howed := (hdues.map Prod.fst).symm.trans h.owed
  have hnodup := h.nodup
  have hfresh := h.fresh
  rw [haw] at howed hnodup hfresh
  have hu : Sound { t with replies := front ++ back, control := .looking } :=
    ⟨h.staffed, h.fitted, howed.cons_inv, hnodup.of_cons,
      fun other hm => hfresh other (List.mem_cons_of_mem _ hm),
      by simpa [hc, Control.unsent] using h.busy_eq, h.gone, trivial⟩
  cases reply with
  | error fault => exact hu.beside ⟨rfl, rfl, rfl, rfl, rfl, rfl, rfl, rfl, id⟩ trivial
  | ok script =>
    by_cases hn : t.buffers.ready ++ script = []
    · simp only [answered, if_pos hn]
      exact hu.beside ⟨rfl, rfl, rfl, rfl, rfl, rfl, rfl, rfl, id⟩ trivial
    · simp only [answered, if_neg hn]
      exact hu.beside ⟨rfl, rfl, rfl, rfl, rfl, rfl, rfl, rfl, id⟩ trivial

theorem Sound.poll (h : t.Sound) (hs : Polls feed t t') : t'.Sound := by
  cases hs
  case count hc _ hp => exact h.counted hc hp
  case submit hc => exact h.submitted hc
  case receive hc hr => exact h.received hc hr
  all_goals
    refine h.beside ⟨rfl, rfl, rfl, rfl, rfl, rfl, ?_, ?_, ?_⟩ ?_ <;>
      simp_all [awaited, Placed, Control.slot?, Control.unsent, Link.slot?, List.filterMap_cons,
        List.filterMap_map]

theorem Sound.withReady (h : t.Sound) (ready : List Op) :
    Sound { t with buffers := { t.buffers with ready } } :=
  h.beside ⟨rfl, rfl, rfl, rfl, rfl, rfl, rfl, rfl, id⟩ h.placed

theorem Sound.withBelow (h : t.Sound) (below : σ) : Sound { t with below } :=
  h.beside ⟨rfl, rfl, rfl, rfl, rfl, rfl, rfl, rfl, id⟩ h.placed

theorem Sound.withCancelled (h : t.Sound) (cancelled : Bool) : Sound { t with cancelled } :=
  h.beside ⟨rfl, rfl, rfl, rfl, rfl, rfl, rfl, rfl, id⟩ h.placed

theorem Sound.again (h : t.Sound) {answer : Except Fault Unit} (hc : t.control = .returned answer) :
    Sound { t with control := .checking } :=
  h.beside ⟨rfl, rfl, rfl, rfl, rfl, rfl, by simp [awaited, hc, Control.slot?],
    by simp [hc, Control.unsent], id⟩ trivial

end Poll

section Work

variable {t t' : Threads σ} {worker worker' : Worker} {front back : List Worker}

/-- The threads after a worker has gone on. -/
private abbrev replaced (t : Threads σ) (front : List Worker) (worker : Worker)
    (back : List Worker) : Threads σ :=
  { t with workers := front ++ worker :: back }

private theorem owed_work (h : Works t worker t' worker')
    (hw : t.workers = front ++ worker :: back) :
    ((replaced t' front worker' back).dues.map Prod.fst).Perm (t.dues.map Prod.fst) := by
  rw [List.perm_iff_count]
  intro slot
  cases h with
  | take hj => simp [dues, hw, hj, List.filterMap_cons, List.count_cons]; omega
  | leave hj => simp [dues, hw, List.filterMap_cons]
  | refuse hc => simp [dues, hw, Job.due]
  | compare hg hr => simp [dues, hw, Job.due]
  | finish => simp [dues, hw]
  | reply => simp [dues, hw, List.filterMap_cons, List.count_cons]; omega

private theorem busy_work (h : Works t worker t' worker') (hw : t.workers = front ++ worker :: back)
    (hb : t.busy = t.jobs.length + t.workers.countP Worker.isBusy + t.control.unsent) :
    t'.busy = t'.jobs.length + (front ++ worker' :: back).countP Worker.isBusy +
      t'.control.unsent := by
  cases h <;> simp_all [List.countP_cons, Worker.isBusy] <;> omega

private theorem fitted_work (h : Works t worker t' worker') (hw : worker ∈ t.workers)
    (hf : ∀ worker ∈ t.workers, ∀ graph, worker.graph? = some graph → graph.aligner = t.aligner)
    {graph : Graph} (hg : worker'.graph? = some graph) : graph.aligner = t.aligner := by
  cases h with
  | leave hj ho => cases hg
  | @compare graph? job reply _ hgoing hr =>
    cases hg
    have hmade := ((graph?.getD (.new t.aligner)).align_eq job.orig job.target).2
    rw [hr] at hmade
    rw [hmade]
    cases graph? with
    | none => rfl
    | some graph => exact hf _ hw graph rfl
  | _ => exact hf _ hw graph hg

private theorem gone_work (h : Works t worker t' worker') (hw : t.workers = front ++ worker :: back)
    (hgone : .gone ∈ t.workers → t.isOpen = false ∧ t.jobs = [])
    (hg : .gone ∈ front ++ worker' :: back) : t'.isOpen = false ∧ t'.jobs = [] := by
  by_cases ho : Worker.gone ∈ t.workers
  · obtain ⟨hopen, hjobs⟩ := hgone ho
    cases h <;> simp_all
  · cases h <;> simp_all

/-- What a worker has no part in. -/
structure Apart (t t' : Threads σ) : Prop where
  aligner : t'.aligner = t.aligner
  control : t'.control = t.control
  buffers : t'.buffers = t.buffers
  below : t'.below = t.below
  chain : t'.chain = t.chain
  isOpen : t'.isOpen = t.isOpen
  cancelled : t'.cancelled = t.cancelled
  submitted : t'.submitted = t.submitted

theorem Works.apart (h : Works t worker t' worker') (workers : List Worker) :
    Apart t { t' with workers } := by
  cases h <;> exact ⟨rfl, rfl, rfl, rfl, rfl, rfl, rfl, rfl⟩

theorem Sound.work (h : t.Sound) (hs : Works t worker t' worker')
    (hw : t.workers = front ++ worker :: back) : (replaced t' front worker' back).Sound := by
  have hbusy := busy_work hs hw h.busy_eq
  have hgone := gone_work hs hw h.gone
  have howed := (owed_work hs hw).trans h.owed
  have ha := hs.apart (front ++ worker' :: back)
  have haw : (replaced t' front worker' back).awaited = t.awaited := by
    rw [awaited, ha.control, ha.chain, awaited]
  refine ⟨by simp, ?_, haw ▸ howed, haw ▸ h.nodup, ?_, hbusy, hgone, ?_⟩
  · intro other hm graph hg
    rw [ha.aligner]
    have hold : other ∈ t.workers ∨ other = worker' := by
      simp only [hw, List.mem_append, List.mem_cons] at hm ⊢
      tauto
    rcases hold with hm | rfl
    · exact h.fitted other hm graph hg
    · exact fitted_work hs (by simp [hw]) h.fitted hg
  · rw [haw, ha.submitted]
    exact h.fresh
  · rw [Placed, ha.control, ha.isOpen, ha.buffers, ha.submitted]
    exact h.placed

end Work

theorem Sound.step {feed : Feed σ} {t t' : Threads σ} (h : t.Sound) (hs : Step feed t t') :
    t'.Sound := by
  cases hs with
  | poll hs => exact h.poll hs
  | work hw hs => exact h.work hs hw

end Threads

end BytePatch
