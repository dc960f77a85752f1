import BytePatch.Stage.Align
/-!
Pairs handed to a pool of workers while there is one to spare. What has been taken from the feed
waits in a chain in its old order, single ops as they are and pairs until their script is there,
so the order of the answers does not depend on which worker is done first.
-/
namespace BytePatch

inductive Entry where
  | single (op : Op)
  | pair (orig target : Bytes)
deriving DecidableEq

def Entry.isPair : Entry → Bool
  | .pair _ _ => true
  | .single _ => false

def Entry.weight : Entry → Nat
  | .single op => op.weight
  | .pair orig target => (Op.delete orig).weight + (Op.insert target).weight

/-- A pool is looked at before each piece of work it is given. When as many pairs wait in the
chain as there are workers, a worker may still have finished, and whether it has is up to the
schedule: `early n` says whether the look number `n` finds one. With fewer pairs in the chain
there is always a worker to spare. -/
structure Pool where
  aligner : Aligner
  workers : Nat
  early : Nat → Bool
  looks : Nat
  chain : List Entry
  isOpen : Bool
  cancelled : Bool

namespace Pool

/-- Nobody finishes before their script is asked for. -/
def lazy (_ : Nat) : Bool := false

def new (aligner : Aligner) (workers : Nat) (early : Nat → Bool) : Pool :=
  ⟨aligner, workers, early, 0, [], true, false⟩

/-- There is a worker to spare. -/
def idle (pool : Pool) : Bool :=
  (pool.chain.countP Entry.isPair < pool.workers) || pool.early pool.looks

def looked (pool : Pool) : Pool := { pool with looks := pool.looks + 1 }

def weight (pool : Pool) : Nat := sumOf Entry.weight pool.chain

/-- Move the first pending op, or the first two if they are a pair, to the end of a chain. -/
def enqueue (chain : List Entry) (a b : Op) (pending : List Op) : List Entry × List Op :=
  match a.pair? b with
  | some (orig, target) => (chain ++ [.pair orig target], pending)
  | none => (chain ++ [.single a], b :: pending)

theorem length_enqueue_le (chain : List Entry) (a b : Op) (pending : List Op) :
    (enqueue chain a b pending).2.length ≤ pending.length + 1 := by
  unfold enqueue; split <;> simp

/-- Move pending ops to the chain while two are pending and a worker is idle. A worker was idle
when this was begun. -/
def dispatch (pool : Pool) (pending : List Op) : Next (Pool × List Op) (Pool × List Op) :=
  match pending with
  | a :: b :: rest =>
    have := length_enqueue_le pool.chain a b rest
    let queued := { pool with chain := (enqueue pool.chain a b rest).1 }
    if queued.idle then dispatch queued.looked (enqueue pool.chain a b rest).2
    else .done (queued.looked, (enqueue pool.chain a b rest).2)
  | pending => .more (pool, pending)
termination_by pending.length

def receive (waiting : Pool × List Op) (op : Op) : Next (Pool × List Op) (Pool × List Op) :=
  dispatch waiting.1 (waiting.2 ++ [op])

/-- Nothing more is taken from the feed; what is pending comes out as it is. -/
def closed (pool : Pool) (pending : List Op) : Pool :=
  { pool with chain := pool.chain ++ pending.map .single, isOpen := false }

variable {σ : Type}

/-- Give the workers what they can take. A pool that was cancelled, or whose feed has run dry,
is closed for good. -/
def pump (feed : Feed σ) (pool : Pool) (buffers : Buffers) (s : σ) :
    Except Fault Unit × Pool × Buffers × σ :=
  if pool.cancelled then (.error .cancelled, { pool with isOpen := false }, buffers, s)
  else if !pool.isOpen then (.ok (), pool, buffers, s)
  else if !pool.idle then (.ok (), pool.looked, buffers, s)
  else
    match dispatch pool.looked buffers.pending with
    | .done (pool, pending) => (.ok (), pool, { buffers with pending }, s)
    | .more waiting =>
      match feed.consume receive waiting s with
      | (.done (pool, pending), s) => (.ok (), pool, { buffers with pending }, s)
      | (.dry (pool, pending), s) =>
        (.ok (), pool.closed pending, { buffers with pending := [] }, s)
      | (.failed fault (pool, pending), s) => (.error fault, pool, { buffers with pending }, s)

private def held (waiting : Pool × List Op) : Nat := waiting.1.weight + Script.weight waiting.2

private theorem weight_enqueue (chain : List Entry) (a b : Op) (pending : List Op) :
    sumOf Entry.weight (enqueue chain a b pending).1 +
        Script.weight (enqueue chain a b pending).2 =
      sumOf Entry.weight chain + Script.weight (a :: b :: pending) := by
  unfold enqueue
  split
  · next orig target hp =>
    cases a <;> cases b <;> simp [Op.pair?] at hp <;> obtain ⟨rfl, rfl⟩ := hp <;>
      simp [Entry.weight] <;> omega
  · simp [Entry.weight]; omega

private theorem weight_dispatch (pool : Pool) (pending : List Op) :
    (dispatch pool pending).weight held held = held (pool, pending) := by
  fun_induction dispatch pool pending with
  | case1 pool a b rest _ queued hi ih =>
    rw [ih]
    have := weight_enqueue pool.chain a b rest
    simpa [held, weight, looked, queued] using this
  | case2 pool a b rest _ queued hi =>
    have := weight_enqueue pool.chain a b rest
    simpa [Next.weight, held, weight, looked, queued] using this
  | case3 => rfl

private theorem weight_closed (pool : Pool) (pending : List Op) :
    (pool.closed pending).weight = pool.weight + Script.weight pending := by
  simp [closed, weight, Script.weight, sumOf_map, Entry.weight]

theorem weight_pump_le (feed : Feed σ) (pool : Pool) (buffers : Buffers) (s : σ) :
    (pump feed pool buffers s).2.1.weight + (pump feed pool buffers s).2.2.1.weight +
        feed.rank (pump feed pool buffers s).2.2.2 ≤
      pool.weight + buffers.weight + feed.rank s := by
  unfold pump
  split
  · exact Nat.le_refl _
  split
  · exact Nat.le_refl _
  split
  · exact Nat.le_refl _
  have hd := weight_dispatch pool.looked buffers.pending
  split <;> rename_i heq <;> rw [heq] at hd <;> simp only [Next.weight] at hd
  · simp only [held, looked, weight, Buffers.weight] at *; omega
  · next waiting =>
    have hc := feed.rank_consume_le receive held held
      (fun waiting op => by
        unfold receive
        rw [weight_dispatch]
        simp only [held, Script.weight_append, Script.weight_cons, Script.weight_nil]
        omega) waiting s
    split <;> rename_i heq2 <;> rw [heq2] at hc <;> simp only [Outcome.weight] at hc
    · simp only [held, looked, weight, Buffers.weight] at *; omega
    · rw [weight_closed]
      simp only [held, looked, weight, Buffers.weight, Script.weight_nil] at *
      omega
    · simp only [held, looked, weight, Buffers.weight] at *; omega

/-- Give the workers work and take the first entry off the chain. The script of a pair may be
empty, and then the next entry is taken too; if the aligner refuses a pair, that pair is lost. -/
def shift (feed : Feed σ) (pool : Pool) (buffers : Buffers) (s : σ) :
    Except Fault Unit × Pool × Buffers × σ :=
  match _hp : pump feed pool buffers s with
  | (.error fault, pool', buffers', s') => (.error fault, pool', buffers', s')
  | (.ok (), pool', buffers', s') =>
    match _hc : pool'.chain with
    | [] => (.ok (), pool', buffers', s')
    | .single op :: chain => (.ok (), { pool' with chain }, buffers'.pushReady op, s')
    | .pair orig target :: chain =>
      match pool'.aligner.align orig target with
      | .error fault => (.error fault, { pool' with chain }, buffers', s')
      | .ok script =>
        if buffers'.ready ++ script = [] then shift feed { pool' with chain } buffers' s'
        else (.ok (), { pool' with chain }, { buffers' with ready := buffers'.ready ++ script }, s')
termination_by pool.weight + buffers.weight + feed.rank s
decreasing_by
  have hw := weight_pump_le feed pool buffers s
  have ho := (Op.delete orig).weight_pos
  rw [_hp] at hw
  simp only [weight, _hc, sumOf_cons, Entry.weight] at hw ⊢
  omega

theorem weight_shift_le (feed : Feed σ) (pool : Pool) (buffers : Buffers) (s : σ) :
    (shift feed pool buffers s).2.1.weight + (shift feed pool buffers s).2.2.1.weight +
        feed.rank (shift feed pool buffers s).2.2.2 ≤
      pool.weight + buffers.weight + feed.rank s := by
  fun_induction shift feed pool buffers s with
  | case1 pool buffers s fault pool' buffers' s' hp =>
    have hw := weight_pump_le feed pool buffers s
    rwa [hp] at hw
  | case2 pool buffers s pool' buffers' s' hp hc =>
    have hw := weight_pump_le feed pool buffers s
    rwa [hp] at hw
  | case3 pool buffers s pool' buffers' s' hp op chain hc =>
    have hw := weight_pump_le feed pool buffers s
    rw [hp] at hw
    simp only [weight, hc, sumOf_cons, Entry.weight, Buffers.pushReady,
      Buffers.weight, Script.weight_append, Script.weight_cons, Script.weight_nil] at hw ⊢
    omega
  | case4 pool buffers s pool' buffers' s' hp orig target chain hc fault ha =>
    have hw := weight_pump_le feed pool buffers s
    rw [hp] at hw
    simp only [weight, hc, sumOf_cons] at hw ⊢
    omega
  | case5 pool buffers s pool' buffers' s' hp orig target chain hc script ha hr ih =>
    have hw := weight_pump_le feed pool buffers s
    rw [hp] at hw
    simp only [weight, hc, sumOf_cons] at hw ih ⊢
    omega
  | case6 pool buffers s pool' buffers' s' hp orig target chain hc script ha hr =>
    have hw := weight_pump_le feed pool buffers s
    have hs := Aligner.weight_align_le ha
    rw [hp] at hw
    simp only [weight, hc, sumOf_cons, Entry.weight, Op.weight, Op.run,
      Buffers.weight, Script.weight_append] at hw ⊢
    omega

end Pool

end BytePatch
