import BytePatch.Script
/-!
Feeds of ops. A feed answers each poll with an op, with nothing more for now, or with a failure,
and goes on to its next state either way. Its rank bounds all the ops it can still give, so every
consumer that polls until it has enough comes to an end.
-/
namespace BytePatch

abbrev Answer := Except Fault (Option Op)

/-- The weight of the op that an answer gives. -/
def Answer.weight : Answer → Nat
  | .ok (some op) => op.weight
  | _ => 0

structure Feed (σ : Type) where
  poll : σ → Answer × σ
  /-- Bound on the weight of all ops to come. -/
  rank : σ → Nat
  rank_poll : ∀ s, rank (poll s).2 + (poll s).1.weight ≤ rank s

/-- What a consumer does after an op: want more, or be done. -/
inductive Next (α β : Type) where
  | more (state : α)
  | done (result : β)

/-- How a consumer's polling ended. -/
inductive Outcome (α β : Type) where
  | done (result : β)
  | dry (state : α)
  | failed (fault : Fault) (state : α)

variable {σ α β : Type}

/-- The weight of what is in a consumer's hands, given that of its states and of its results. -/
def Next.weight (state : α → Nat) (result : β → Nat) : Next α β → Nat
  | .more a => state a
  | .done b => result b

def Outcome.weight (state : α → Nat) (result : β → Nat) : Outcome α β → Nat
  | .done b => result b
  | .dry a | .failed _ a => state a

namespace Feed

/-- Poll and hand each op to the consumer until it is done, the feed has no more, or a poll
fails. -/
def consume (feed : Feed σ) (step : α → Op → Next α β) (state : α) (s : σ) : Outcome α β × σ :=
  match _h : feed.poll s with
  | (.error fault, s') => (.failed fault state, s')
  | (.ok none, s') => (.dry state, s')
  | (.ok (some op), s') =>
    match step state op with
    | .done result => (.done result, s')
    | .more state' => consume feed step state' s'
termination_by feed.rank s
decreasing_by
  have hr := feed.rank_poll s
  have hw := op.weight_pos
  rw [_h] at hr
  simp only [Answer.weight] at hr
  omega

/-- A consumer that makes no op heavier has in the end no more in hand than it had at first and
the feed has lost. -/
theorem rank_consume_le (feed : Feed σ) (step : α → Op → Next α β) (m : α → Nat) (n : β → Nat)
    (hstep : ∀ a op, (step a op).weight m n ≤ m a + op.weight) (state : α) (s : σ) :
    (feed.consume step state s).1.weight m n + feed.rank (feed.consume step state s).2 ≤
      m state + feed.rank s := by
  fun_induction consume feed step state s with
  | case1 state s fault s' h =>
    have hr := feed.rank_poll s
    rw [h] at hr
    simp only [Outcome.weight, Answer.weight] at *
    omega
  | case2 state s s' h =>
    have hr := feed.rank_poll s
    rw [h] at hr
    simp only [Outcome.weight, Answer.weight] at *
    omega
  | case3 state s op s' h result hs =>
    have hr := feed.rank_poll s
    have hw := hstep state op
    rw [h] at hr
    rw [hs] at hw
    simp only [Outcome.weight, Answer.weight, Next.weight] at *
    omega
  | case4 state s op s' h state' hs ih =>
    have hr := feed.rank_poll s
    have hw := hstep state op
    rw [h] at hr
    rw [hs] at hw
    simp only [Answer.weight, Next.weight] at *
    omega

/-- Poll until at least `count` ops are pending, and say whether they are. -/
def require (feed : Feed σ) (count : Nat) (pending : List Op) (s : σ) :
    Except Fault Bool × List Op × σ :=
  if count ≤ pending.length then (.ok true, pending, s)
  else
    match feed.consume gather pending s with
    | (.done pending, s) => (.ok true, pending, s)
    | (.dry pending, s) => (.ok false, pending, s)
    | (.failed fault pending, s) => (.error fault, pending, s)
where
  gather (pending : List Op) (op : Op) : Next (List Op) (List Op) :=
    let pending := pending ++ [op]
    if count ≤ pending.length then .done pending else .more pending

theorem rank_require_le (feed : Feed σ) (count : Nat) (pending : List Op) (s : σ) :
    Script.weight (feed.require count pending s).2.1 +
        feed.rank (feed.require count pending s).2.2 ≤
      Script.weight pending + feed.rank s := by
  unfold require
  split
  · exact Nat.le_refl _
  · have h := feed.rank_consume_le (require.gather count) Script.weight Script.weight
      (fun a op => by
        unfold require.gather
        dsimp only
        split <;> simp [Next.weight]) pending s
    split <;> rename_i heq <;> rw [heq] at h <;> simpa [Outcome.weight] using h

/-- Keep every op, the latest first, and never be done. -/
def keepAll (kept : List Op) (op : Op) : Next (List Op) Empty := .more (op :: kept)

/-- Every op until the feed is dry or fails. -/
def drain (feed : Feed σ) (s : σ) : Except Fault Unit × List Op × σ :=
  match feed.consume keepAll [] s with
  | (.dry kept, s) => (.ok (), kept.reverse, s)
  | (.failed fault kept, s) => (.error fault, kept.reverse, s)

theorem rank_drain_le (feed : Feed σ) (s : σ) :
    Script.weight (feed.drain s).2.1 + feed.rank (feed.drain s).2.2 ≤ feed.rank s := by
  have h := feed.rank_consume_le keepAll Script.weight (fun _ => 0)
    (fun a op => by simp [keepAll, Next.weight, Nat.add_comm]) [] s
  unfold drain
  split <;> rename_i heq <;> rw [heq] at h <;> simpa [Outcome.weight] using h

end Feed

end BytePatch
