import BytePatch.Stage.Pool
/-!
The threads of a pool as they run side by side: the one that polls, and the workers. What they share
is the count of busy workers, the channel of jobs, a channel with room for one answer for each job,
and the flag that cancels. Whose step comes next is left open.
-/
namespace BytePatch

abbrev Reply := Except Fault Script

/-- A pair, and the channel on which its script is waited for. -/
structure Job where
  orig : Bytes
  target : Bytes
  slot : Nat
deriving DecidableEq

/-- Compare a pair and take the script out. -/
def Graph.align (graph : Graph) (orig target : Bytes) : Reply × Graph :=
  match graph.compute orig target with
  | (.error fault, graph) => (.error fault, graph)
  | (.ok (), graph) => (List.reverse <$> graph.scriptBack, graph)

/-- Where a worker is. Its graph is made for its first job and kept for the others. -/
inductive Worker where
  | waiting (graph? : Option Graph)
  | working (graph? : Option Graph) (job : Job)
  /-- The answer is there, and the worker still counts as busy. -/
  | finished (graph? : Option Graph) (slot : Nat) (reply : Reply)
  /-- The worker counts as busy no more, and has not answered yet. -/
  | replying (graph? : Option Graph) (slot : Nat) (reply : Reply)
  | gone

namespace Worker

def graph? : Worker → Option Graph
  | .waiting graph? | .working graph? _ | .finished graph? _ _ | .replying graph? _ _ => graph?
  | .gone => none

def isBusy : Worker → Bool
  | .working _ _ | .finished _ _ _ => true
  | .waiting _ | .replying _ _ _ | .gone => false

end Worker

/-- What stands in the chain: an op, or the channel of a pair's script. -/
inductive Link where
  | op (op : Op)
  | awaited (slot : Nat)
deriving DecidableEq

/-- Where the thread that polls is in a refill. -/
inductive Control where
  /-- About to see whether it was cancelled. -/
  | checking
  /-- About to see whether a worker is to spare. -/
  | looking
  /-- A worker was to spare. -/
  | giving
  /-- The job is counted, and has not been sent yet. -/
  | submitting (job : Job)
  /-- About to take the first entry off the chain. -/
  | popping
  /-- That entry was a pair, whose script is waited for. -/
  | receiving (slot : Nat)
  /-- Waiting for the workers to go. How work was given comes to this. -/
  | joining (answer : Except Fault Unit)
  | returned (answer : Except Fault Unit)

structure Threads (σ : Type) where
  aligner : Aligner
  control : Control
  buffers : Buffers
  below : σ
  chain : List Link
  isOpen : Bool
  cancelled : Bool
  /-- Number of jobs there have been, which is the next one's channel. -/
  submitted : Nat
  busy : Nat
  jobs : List Job
  /-- Answers that were sent and not received yet, each with its channel. -/
  replies : List (Nat × Reply)
  workers : List Worker

namespace Threads

variable {σ : Type}

/-- Nothing has been asked for yet. -/
def new (aligner : Aligner) (workers : Nat) (below : σ) : Threads σ :=
  ⟨aligner, .returned (.ok ()), .empty, below, [], true, false, 0, 0, [], [],
    List.replicate workers (.waiting none)⟩

/-- What becomes of an answer. After an empty script the refill begins again. -/
def answered (t : Threads σ) : Reply → Threads σ
  | .error fault => { t with control := .returned (.error fault) }
  | .ok script =>
    { t with
      buffers := { t.buffers with ready := t.buffers.ready ++ script }
      control := if t.buffers.ready ++ script = [] then .checking else .returned (.ok ()) }

/-- Steps of the thread that polls. -/
inductive Polls (feed : Feed σ) : Threads σ → Threads σ → Prop
  | cancel {t} : t.control = .checking → t.cancelled = true →
    Polls feed t { t with isOpen := false, control := .joining (.error .cancelled) }
  | proceed {t} : t.control = .checking → t.cancelled = false →
    Polls feed t { t with control := .looking }
  | spare {t} : t.control = .looking → t.isOpen = true → t.busy < t.workers.length →
    Polls feed t { t with control := .giving }
  | enough {t} : t.control = .looking → ¬ (t.isOpen = true ∧ t.busy < t.workers.length) →
    Polls feed t { t with control := .popping }
  | fail {t fault pending below} : t.control = .giving →
    feed.require 2 t.buffers.pending t.below = (.error fault, pending, below) →
    Polls feed t { t with
      buffers := { t.buffers with pending }
      below
      control := .returned (.error fault) }
  | close {t pending below} : t.control = .giving →
    feed.require 2 t.buffers.pending t.below = (.ok false, pending, below) →
    Polls feed t { t with
      buffers := { t.buffers with pending := [] }
      below
      chain := t.chain ++ pending.map .op
      isOpen := false
      control := .joining (.ok ()) }
  | single {t a b pending below} : t.control = .giving →
    feed.require 2 t.buffers.pending t.below = (.ok true, a :: b :: pending, below) →
    a.pair? b = none →
    Polls feed t { t with
      buffers := { t.buffers with pending := b :: pending }
      below
      chain := t.chain ++ [.op a]
      control := .looking }
  | count {t a b pending below orig target} : t.control = .giving →
    feed.require 2 t.buffers.pending t.below = (.ok true, a :: b :: pending, below) →
    a.pair? b = some (orig, target) →
    Polls feed t { t with
      buffers := { t.buffers with pending := a :: b :: pending }
      below
      busy := t.busy + 1
      control := .submitting ⟨orig, target, t.submitted⟩ }
  | submit {t job} : t.control = .submitting job →
    Polls feed t { t with
      jobs := t.jobs ++ [job]
      submitted := t.submitted + 1
      buffers := { t.buffers with pending := t.buffers.pending.drop 2 }
      chain := t.chain ++ [.awaited job.slot]
      control := .looking }
  | dry {t} : t.control = .popping → t.chain = [] →
    Polls feed t { t with control := .returned (.ok ()) }
  | pop {t op chain} : t.control = .popping → t.chain = .op op :: chain →
    Polls feed t { t with
      chain
      buffers := t.buffers.pushReady op
      control := .returned (.ok ()) }
  | await {t slot chain} : t.control = .popping → t.chain = .awaited slot :: chain →
    Polls feed t { t with chain, control := .receiving slot }
  | receive {t slot reply front back} : t.control = .receiving slot →
    t.replies = front ++ (slot, reply) :: back →
    Polls feed t (answered { t with replies := front ++ back } reply)
  | join {t} : t.control = .joining (.ok ()) → (∀ worker ∈ t.workers, worker = .gone) →
    Polls feed t { t with control := .popping }
  | quit {t fault} : t.control = .joining (.error fault) → (∀ worker ∈ t.workers, worker = .gone) →
    Polls feed t { t with control := .returned (.error fault) }

/-- Steps of a worker, with what they do to what is shared. A worker goes when there are no more
jobs to come. -/
inductive Works : Threads σ → Worker → Threads σ → Worker → Prop
  | take {t graph? job jobs} : t.jobs = job :: jobs →
    Works t (.waiting graph?) { t with jobs } (.working graph? job)
  | leave {t graph?} : t.jobs = [] → t.isOpen = false → Works t (.waiting graph?) t .gone
  | refuse {t graph? job} : t.cancelled = true →
    Works t (.working graph? job) t (.finished graph? job.slot (.error .cancelled))
  | compare {t graph? job reply graph} : t.cancelled = false →
    (graph?.getD (.new t.aligner)).align job.orig job.target = (reply, graph) →
    Works t (.working graph? job) t (.finished (some graph) job.slot reply)
  | finish {t graph? slot reply} :
    Works t (.finished graph? slot reply) { t with busy := t.busy - 1 }
      (.replying graph? slot reply)
  | reply {t graph? slot reply} :
    Works t (.replying graph? slot reply) { t with replies := t.replies ++ [(slot, reply)] }
      (.waiting graph?)

/-- One thread goes on. -/
inductive Step (feed : Feed σ) : Threads σ → Threads σ → Prop
  | poll {t t'} : Polls feed t t' → Step feed t t'
  | work {t t' front worker worker' back} : t.workers = front ++ worker :: back →
    Works t worker t' worker' → Step feed t { t' with workers := front ++ worker' :: back }

end Threads

/-- How far a drain is. -/
inductive Draining.Phase where
  | polling
  | refilling
  | done (answer : Except Fault Unit)

/-- A pool that is drained by the thread that polls it. -/
structure Draining (σ : Type) where
  threads : Threads σ
  drained : List Op
  phase : Draining.Phase

namespace Draining

variable {σ : Type}

def new (aligner : Aligner) (workers : Nat) (below : σ) : Draining σ :=
  ⟨.new aligner workers below, [], .polling⟩

/-- With nothing ready a refill is begun. It ends the drain if it fails or leaves nothing ready. -/
inductive Step (feed : Feed σ) : Draining σ → Draining σ → Prop
  | thread {t t' drained phase} : Threads.Step feed t t' →
    Step feed ⟨t, drained, phase⟩ ⟨t', drained, phase⟩
  | take {t drained op ready} : t.buffers.ready = op :: ready →
    Step feed ⟨t, drained, .polling⟩
      ⟨{ t with buffers := { t.buffers with ready } }, drained ++ [op], .polling⟩
  | refill {t drained} : t.buffers.ready = [] →
    Step feed ⟨t, drained, .polling⟩ ⟨{ t with control := .checking }, drained, .refilling⟩
  | refilled {t drained op ready} : t.control = .returned (.ok ()) →
    t.buffers.ready = op :: ready →
    Step feed ⟨t, drained, .refilling⟩
      ⟨{ t with buffers := { t.buffers with ready } }, drained ++ [op], .polling⟩
  | dry {t drained} : t.control = .returned (.ok ()) → t.buffers.ready = [] →
    Step feed ⟨t, drained, .refilling⟩ ⟨t, drained, .done (.ok ())⟩
  | failed {t drained fault} : t.control = .returned (.error fault) →
    Step feed ⟨t, drained, .refilling⟩ ⟨t, drained, .done (.error fault)⟩

/-- What can be reached by steps of any threads in any order. -/
inductive Reaches (feed : Feed σ) (start : Draining σ) : Draining σ → Prop
  | refl : Reaches feed start start
  | step {d d'} : Reaches feed start d → Step feed d d' → Reaches feed start d'

end Draining

end BytePatch
