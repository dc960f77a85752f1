import BytePatch.Proofs.Queue.Runs
import BytePatch.Stage.Pool

/-! A refill of a pool as it goes on from one look at the workers to the next: the look, what is
pulled from the feed after it, and at last the first entry of the chain. -/
namespace BytePatch

variable {σ : Type} (feed : Feed σ)

namespace Feed

theorem require_of_le {count : Nat} {pending : List Op} (h : count ≤ pending.length)
    (s : σ) : feed.require count pending s = (.ok true, pending, s) := by
  rw [require, if_pos h]

theorem require_of_lt {count : Nat} {pending : List Op} (h : pending.length < count)
    (s : σ) : feed.require count pending s =
      match feed.poll s with
      | (.error fault, s) => (.error fault, pending, s)
      | (.ok none, s) => (.ok false, pending, s)
      | (.ok (some op), s) => feed.require count (pending ++ [op]) s := by
  rw [require, if_neg (Nat.not_le_of_lt h)]
  rcases hp : feed.poll s with ⟨fault | (- | op), s'⟩
  · rw [consume_failed hp]
  · rw [consume_dry hp]
  by_cases hl : count ≤ (pending ++ [op]).length
  · have hdone : require.gather count pending op = .done (pending ++ [op]) := if_pos hl
    rw [consume_done hp hdone]
    exact (require_of_le feed hl s').symm
  · have hmore : require.gather count pending op = .more (pending ++ [op]) := if_neg hl
    rw [consume_more hp hmore]
    exact (if_neg hl).symm

end Feed

namespace Pool

/-- The rest of a refill once the answer for the first entry is there, that entry being off the
chain. -/
def answered (reply : Except Fault Script) (pool : Pool) (buffers : Buffers) (s : σ) :
    Except Fault Unit × Pool × Buffers × σ :=
  match reply with
  | .error fault => (.error fault, pool, buffers, s)
  | .ok script =>
    if buffers.ready ++ script = [] then shift feed pool buffers s
    else (.ok (), pool, { buffers with ready := buffers.ready ++ script }, s)

/-- The rest of a refill once the workers have been given work. -/
def take : Except Fault Unit × Pool × Buffers × σ → Except Fault Unit × Pool × Buffers × σ
  | (.error fault, pool, buffers, s) => (.error fault, pool, buffers, s)
  | (.ok (), pool, buffers, s) =>
    match pool.chain with
    | [] => (.ok (), pool, buffers, s)
    | .single op :: chain => (.ok (), { pool with chain }, buffers.pushReady op, s)
    | .pair orig target :: chain =>
      answered feed (pool.aligner.align orig target) { pool with chain } buffers s

/-- The work given once a worker has been found to spare: two ops are pulled and the first of them
queued, or both, before the next look; or there is nothing more to pull. -/
def serve (pool : Pool) (buffers : Buffers) (s : σ) : Except Fault Unit × Pool × Buffers × σ :=
  match feed.require 2 buffers.pending s with
  | (.error fault, pending, s) => (.error fault, pool, { buffers with pending }, s)
  | (.ok true, a :: b :: pending, s) =>
    let (chain, pending) := enqueue pool.chain a b pending
    pump feed { pool with chain } { buffers with pending } s
  | (.ok _, pending, s) => (.ok (), pool.closed pending, { buffers with pending := [] }, s)

theorem shift_eq_take (pool : Pool) (buffers : Buffers) (s : σ) :
    shift feed pool buffers s = take feed (pump feed pool buffers s) := by
  rw [shift]
  split
  · next hp => rw [hp, take]
  next pool' buffers' s' hp =>
  rw [hp, take]
  split
  · next hc => rw [hc]
  · next hc => rw [hc]
  · next orig target chain hc =>
    cases ha : pool'.aligner.align orig target <;> simp only [hc, answered, ha]

theorem pump_of_closed {pool : Pool} (hgoing : pool.cancelled = false)
    (hclosed : pool.isOpen = false) (buffers : Buffers) (s : σ) :
    pump feed pool buffers s = (.ok (), pool, buffers, s) := by
  simp [pump, hgoing, hclosed]

theorem pump_of_busy {pool : Pool} (hgoing : pool.cancelled = false) (hopen : pool.isOpen = true)
    (hbusy : pool.idle = false) (buffers : Buffers) (s : σ) :
    pump feed pool buffers s = (.ok (), pool.looked, buffers, s) := by
  simp [pump, hgoing, hopen, hbusy]

section Fill

/-- What becomes of the ops that were pending: no worker is to spare any more, or more is pulled. -/
private def settle (ready : List Op) (s : σ) : Next (Pool × List Op) (Pool × List Op) →
    Except Fault Unit × Pool × Buffers × σ
  | .done (pool, pending) => (.ok (), pool, ⟨ready, pending⟩, s)
  | .more waiting =>
    match feed.consume receive waiting s with
    | (.done (pool, pending), s) => (.ok (), pool, ⟨ready, pending⟩, s)
    | (.dry (pool, pending), s) => (.ok (), pool.closed pending, ⟨ready, []⟩, s)
    | (.failed fault (pool, pending), s) => (.error fault, pool, ⟨ready, pending⟩, s)

private theorem pump_eq_settle {pool : Pool} (hgoing : pool.cancelled = false)
    (hopen : pool.isOpen = true) (buffers : Buffers) (s : σ) :
    pump feed pool buffers s = settle feed buffers.ready s
      (if pool.idle then dispatch pool.looked buffers.pending
        else .done (pool.looked, buffers.pending)) := by
  rw [pump, if_neg (by simp [hgoing]), if_neg (by simp [hopen])]
  by_cases hidle : pool.idle = true
  · rw [if_neg (by simp [hidle]), if_pos hidle]
    rfl
  · rw [if_pos (by simpa using hidle), if_neg hidle]
    rfl

private theorem dispatch_of_lt {pool : Pool} {pending : List Op} (h : pending.length < 2) :
    dispatch pool pending = .more (pool, pending) := by
  match pending, h with
  | [], _ => simp [dispatch]
  | [_], _ => simp [dispatch]

private theorem dispatch_of_two (pool : Pool) (a b : Op) (pending : List Op) :
    dispatch pool (a :: b :: pending) =
      let queued := { pool with chain := (enqueue pool.chain a b pending).1 }
      if queued.idle then dispatch queued.looked (enqueue pool.chain a b pending).2
      else .done (queued.looked, (enqueue pool.chain a b pending).2) := by
  rw [dispatch]

private theorem settle_of_lt {pool : Pool} {pending : List Op} (h : pending.length < 2)
    (ready : List Op) (s : σ) : settle feed ready s (dispatch pool pending) =
      match feed.poll s with
      | (.error fault, s) => (.error fault, pool, ⟨ready, pending⟩, s)
      | (.ok none, s) => (.ok (), pool.closed pending, ⟨ready, []⟩, s)
      | (.ok (some op), s) => settle feed ready s (dispatch pool (pending ++ [op])) := by
  rw [dispatch_of_lt h, settle]
  rcases hp : feed.poll s with ⟨fault | (- | op), s'⟩
  · simp only [Feed.consume_failed hp]
  · simp only [Feed.consume_dry hp]
  · cases hd : dispatch pool (pending ++ [op]) with
    | done state =>
      have hstep : receive (pool, pending) op = .done state := hd
      simp only [Feed.consume_done hp hstep, settle, hd]
    | more state =>
      have hstep : receive (pool, pending) op = .more state := hd
      simp only [Feed.consume_more hp hstep, settle, hd]

private theorem settle_eq_serve {pool : Pool} (hgoing : pool.cancelled = false)
    (hopen : pool.isOpen = true) (ready pending : List Op) (s : σ) :
    settle feed ready s (dispatch pool pending) = serve feed pool ⟨ready, pending⟩ s := by
  have enough : ∀ a b rest s, settle feed ready s (dispatch pool (a :: b :: rest)) =
      serve feed pool ⟨ready, a :: b :: rest⟩ s := by
    intro a b rest s
    rw [serve, Feed.require_of_le feed (Nat.le_add_left 2 rest.length), dispatch_of_two]
    dsimp only
    generalize enqueue pool.chain a b rest = queue
    obtain ⟨chain, pending⟩ := queue
    have hqueued : ({ pool with chain } : Pool).cancelled = false ∧
        ({ pool with chain } : Pool).isOpen = true := ⟨hgoing, hopen⟩
    exact (pump_eq_settle feed hqueued.1 hqueued.2 ⟨ready, pending⟩ s).symm
  -- Two polls at most until enough is pending.
  have pulled : ∀ pending, pending.length < 2 →
      (∀ op s, settle feed ready s (dispatch pool (pending ++ [op])) =
        serve feed pool ⟨ready, pending ++ [op]⟩ s) →
      ∀ s, settle feed ready s (dispatch pool pending) = serve feed pool ⟨ready, pending⟩ s := by
    intro pending hl hnext s
    rw [settle_of_lt feed hl, serve, Feed.require_of_lt feed hl]
    rcases feed.poll s with ⟨fault | (- | op), s'⟩
    · rfl
    · rfl
    · exact hnext op s'
  match pending with
  | [] =>
    exact pulled [] Nat.two_pos (fun _ s => pulled [_] Nat.one_lt_two (fun _ _ => enough ..) s) s
  | [op] => exact pulled [op] Nat.one_lt_two (fun _ _ => enough ..) s
  | a :: b :: rest => exact enough a b rest s

end Fill

theorem pump_of_idle {pool : Pool} (hgoing : pool.cancelled = false) (hopen : pool.isOpen = true)
    (hidle : pool.idle = true) (buffers : Buffers) (s : σ) :
    pump feed pool buffers s = serve feed pool.looked buffers s := by
  have hlooked : pool.looked.cancelled = false ∧ pool.looked.isOpen = true := ⟨hgoing, hopen⟩
  rw [pump_eq_settle feed hgoing hopen, if_pos hidle]
  exact settle_eq_serve feed hlooked.1 hlooked.2 buffers.ready buffers.pending s

end Pool

end BytePatch
