import BytePatch.Proofs.Threads.Drain

/-! A poll by threads comes to an end, and so does a drain. What there is to do is weighed: an op
weighs less the nearer it is to being drained, and a step that moves none leaves fewer errands to
run. -/
namespace BytePatch

def Job.load (job : Job) : Nat := 2 * (job.orig.length + job.target.length) + 1

def Reply.load : Reply → Nat
  | .ok script => 2 * script.weight + 1
  | .error _ => 1

def Link.load : Link → Nat
  | .op one => 2 * one.weight
  | .awaited _ => 1

namespace Worker

def load : Worker → Nat
  | .working _ job => job.load
  | .finished _ _ reply | .replying _ _ reply => reply.load
  | .waiting _ | .gone => 0

/-- Number of steps a worker has at most left to do with what it has. -/
def errands : Worker → Nat
  | .working _ _ => 4
  | .finished _ _ _ => 3
  | .replying _ _ _ => 2
  | .waiting _ => 1
  | .gone => 0

end Worker

def Control.errands : Control → Nat
  | .checking => 5
  | .looking => 4
  | .giving => 3
  | .submitting _ | .joining _ => 2
  | .popping => 1
  | .receiving _ | .returned _ => 0

theorem Graph.load_align_le {graph graph' : Graph} {job : Job} {reply : Reply}
    (h : graph.align job.orig job.target = (reply, graph')) : reply.load ≤ job.load := by
  have hreply := (graph.align_eq job.orig job.target).1
  rw [h] at hreply
  cases reply with
  | error fault => exact Nat.le_add_left 1 _
  | ok script =>
    have := Aligner.weight_align_le hreply.symm
    simp only [Reply.load, Job.load]
    omega

namespace Threads

variable {σ : Type} {feed : Feed σ} {t t' : Threads σ}

/-- What the ops that are not drained weigh. -/
def load (feed : Feed σ) (t : Threads σ) : Nat :=
  4 * (Script.weight t.buffers.pending + feed.rank t.below) + sumOf Link.load t.chain +
    sumOf Job.load t.jobs + sumOf Worker.load t.workers + sumOf (·.2.load) t.replies +
    Script.weight t.buffers.ready

def errands (t : Threads σ) : Nat :=
  4 * t.jobs.length + sumOf Worker.errands t.workers + t.control.errands

/-- Seven errands weigh as much as the least that can be moved. -/
def left (feed : Feed σ) (t : Threads σ) : Nat := 7 * t.load feed + t.errands

private theorem left_work {worker worker' : Worker} {front back : List Worker}
    (hw : t.workers = front ++ worker :: back) (hs : Works t worker t' worker') :
    left feed { t' with workers := front ++ worker' :: back } < left feed t := by
  simp only [left, load, errands, hw, sumOf_append, sumOf_cons]
  cases hs with
  | take hj =>
    simp only [hj, sumOf_cons, List.length_cons, Worker.load, Worker.errands]
    omega
  | leave => simp only [Worker.load, Worker.errands]; omega
  | @refuse graph? job hc =>
    have : 1 ≤ job.load := Nat.le_add_left 1 _
    simp only [Worker.load, Reply.load, Worker.errands]
    omega
  | compare hc hr =>
    have := Graph.load_align_le hr
    simp only [Worker.load, Worker.errands]
    omega
  | finish => simp only [Worker.load, Worker.errands]; omega
  | reply =>
    simp only [sumOf_append, sumOf_cons, sumOf_nil, Worker.load, Worker.errands]
    omega

private theorem load_map_op (ops : List Op) :
    sumOf Link.load (ops.map .op) = 2 * Script.weight ops := by
  induction ops with
  | nil => rfl
  | cons op ops ih => simp [ih, Link.load, Nat.mul_add]

private theorem load_submit (h : t.Sound) {job : Job} (hc : t.control = .submitting job) :
    4 * Script.weight (t.buffers.pending.drop 2) + job.load + 2 <
      4 * Script.weight t.buffers.pending := by
  obtain ⟨-, -, a, b, pending, hpending, hpair⟩ : _ ∧ _ ∧ ∃ a b pending,
      t.buffers.pending = a :: b :: pending ∧ a.pair? b = some (job.orig, job.target) := by
    simpa [Placed, hc] using h.placed
  have hweight := Op.weight_of_pair? hpair
  have ha := a.weight_pos
  have hb := b.weight_pos
  simp only [hpending, List.drop_succ_cons, List.drop_zero, Script.weight_cons, Job.load]
  omega

private theorem left_poll (h : t.Sound) (hs : Polls feed t t') : left feed t' < left feed t := by
  have hpull := feed.rank_require_le 2 t.buffers.pending t.below
  -- An op that is moved pays for the errands it brings: the pump looks again, or the refill begins
  -- again.
  cases hs with
  | fail hc hr =>
    simp only [left, load, errands, hc, Control.errands, hr] at hpull ⊢
    omega
  | close hc hr =>
    simp only [left, load, errands, hc, Control.errands, hr, sumOf_append, load_map_op,
      Script.weight_nil] at hpull ⊢
    omega
  | @single a b pending below hc hr hp =>
    have := a.weight_pos
    simp only [left, load, errands, hc, Control.errands, hr, sumOf_append, sumOf_cons, sumOf_nil,
      Link.load, Script.weight_cons] at hpull ⊢
    omega
  | count hc hr hp =>
    simp only [left, load, errands, hc, Control.errands, hr] at hpull ⊢
    omega
  | submit hc =>
    have := load_submit h hc
    simp only [left, load, errands, hc, Control.errands, sumOf_append, sumOf_cons, sumOf_nil,
      Link.load, List.length_append, List.length_singleton]
    omega
  | pop hc hchain =>
    simp only [left, load, errands, hc, Control.errands, hchain, sumOf_cons, Link.load,
      Buffers.pushReady, Script.weight_append, Script.weight_cons, Script.weight_nil]
    omega
  | await hc hchain =>
    simp only [left, load, errands, hc, Control.errands, hchain, sumOf_cons, Link.load]
    omega
  | @receive slot reply front back hc hr =>
    cases reply with
    | error fault =>
      simp only [left, load, errands, answered, hc, Control.errands, hr, sumOf_append, sumOf_cons,
        Reply.load]
      omega
    | ok script =>
      have hcontrol :
          (answered { t with replies := front ++ back } (.ok script)).control.errands ≤ 5 := by
        simp only [answered]
        split <;> simp [Control.errands]
      simp only [left, load, errands, answered, hc, Control.errands, hr, sumOf_append, sumOf_cons,
        Reply.load, Script.weight_append] at hcontrol ⊢
      omega
  | _ hc => simp only [left, load, errands, hc, Control.errands]; omega

theorem Sound.left_step (h : t.Sound) (hs : Step feed t t') : left feed t' < left feed t := by
  cases hs with
  | poll hs => exact left_poll h hs
  | work hw hs => exact left_work hw hs

/-- The threads cannot go on for ever by themselves. -/
theorem Sound.acc (feed : Feed σ) (h : t.Sound) :
    Acc (fun later earlier => Step feed earlier later) t := by
  induction hn : left feed t using Nat.strongRecOn generalizing t with
  | _ n ih =>
    refine .intro t fun later hs => ih _ ?_ (h.step hs) rfl
    rw [← hn]
    exact h.left_step hs

end Threads

namespace Polling

variable {σ : Type} {feed : Feed σ}

/-- What is left to do before the next answer. A refill that has not begun has its errands to come. -/
def left (feed : Feed σ) (p : Polling σ) : Nat :=
  p.threads.left feed + if p.refilling then 0 else 6

private theorem left_step {p p' : Polling σ} (h : p.threads.Sound) (hs : Step feed p p')
    (hsame : p'.answers = p.answers) : left feed p' < left feed p := by
  cases hs with
  | thread hs => exact Nat.add_lt_add_right (h.left_step hs) _
  | refill hready =>
    simp only [left, Threads.left, Threads.load, Threads.errands, Control.errands, if_true,
      Bool.false_eq_true, if_false]
    omega
  | _ => simp at hsame

theorem Reaches.acc {aligner : Aligner} {workers : Nat} (hw : 0 < workers) {s : σ} {p : Polling σ}
    (h : Reaches feed (new aligner workers s) p) :
    Acc (fun later earlier => Step feed earlier later ∧ later.answers = earlier.answers) p := by
  induction hn : left feed p using Nat.strongRecOn generalizing p with
  | _ n ih =>
    obtain ⟨found, htracked⟩ := h.tracked hw
    refine .intro p fun later ⟨hs, hsame⟩ => ih _ ?_ (h.tail hs) rfl
    rw [← hn]
    exact left_step htracked.sound hs hsame

end Polling

namespace Draining

variable {σ : Type} {feed : Feed σ}

def Phase.errands : Phase → Nat
  | .polling => 7
  | .refilling => 1
  | .done _ => 0

def left (feed : Feed σ) (d : Draining σ) : Nat := d.threads.left feed + d.phase.errands

private theorem left_step {d d' : Draining σ} (h : d.threads.Sound) (hs : Step feed d d') :
    left feed d' < left feed d := by
  cases hs with
  | thread hs => exact Nat.add_lt_add_right (h.left_step hs) _
  | @take t drained op ready hready =>
    have := op.weight_pos
    simp only [left, Threads.left, Threads.load, Threads.errands, hready, Script.weight_cons]
    omega
  | refill hready =>
    simp only [left, Threads.left, Threads.load, Threads.errands, Control.errands, Phase.errands]
    omega
  | @refilled t drained op ready hc hready =>
    have := op.weight_pos
    simp only [left, Threads.left, Threads.load, Threads.errands, hready, Script.weight_cons,
      Phase.errands]
    omega
  | dry => exact Nat.lt_succ_self _
  | failed => exact Nat.lt_succ_self _

theorem Reaches.acc {aligner : Aligner} {workers : Nat} (hw : 0 < workers) {s : σ} {d : Draining σ}
    (h : Reaches feed (new aligner workers s) d) :
    Acc (fun later earlier => Step feed earlier later) d := by
  induction hn : left feed d using Nat.strongRecOn generalizing d with
  | _ n ih =>
    refine .intro d fun later hs => ih _ ?_ (h.step hs) rfl
    rw [← hn]
    exact left_step (h.sound hw) hs

end Draining

end BytePatch
