import BytePatch.Proofs.Queue.Polls
import BytePatch.Proofs.Stage.Serving

/-! Feeds whose states differ but whose answers do not. Nothing that consumes the one can tell it
from the other, and neither can the layers on top of them. -/
namespace BytePatch

variable {σ τ α β : Type}

/-- The states of a consumer's result, seen through a map. -/
def viewed {γ : Type} (f : σ → τ) (result : γ × σ) : γ × τ := (result.1, f result.2)

/-- The second feed answers as the first one does, whose states are seen through a map. -/
def Feed.Alike (f : σ → τ) (feed : Feed σ) (feed' : Feed τ) : Prop :=
  ∀ s, feed'.poll (f s) = viewed f (feed.poll s)

namespace Feed.Alike
variable {f : σ → τ} {feed : Feed σ} {feed' : Feed τ}

theorem consume (h : Alike f feed feed') (step : α → Op → Next α β) (a : α) (s : σ) :
    feed'.consume step a (f s) = viewed f (feed.consume step a s) := by
  induction a, s using Feed.consume.induct feed step with
  | case1 a s fault s' hp =>
    have hp' : feed'.poll (f s) = (.error fault, f s') := by rw [h, hp]; rfl
    rw [consume_failed hp, consume_failed hp']
    rfl
  | case2 a s s' hp =>
    have hp' : feed'.poll (f s) = (.ok none, f s') := by rw [h, hp]; rfl
    rw [consume_dry hp, consume_dry hp']
    rfl
  | case3 a s op s' hp b hb =>
    have hp' : feed'.poll (f s) = (.ok (some op), f s') := by rw [h, hp]; rfl
    rw [consume_done hp hb, consume_done hp' hb]
    rfl
  | case4 a s op s' hp a' hm ih =>
    have hp' : feed'.poll (f s) = (.ok (some op), f s') := by rw [h, hp]; rfl
    rw [consume_more hp hm, consume_more hp' hm, ih]

theorem require (h : Alike f feed feed') (count : Nat) (pending : List Op) (s : σ) :
    feed'.require count pending (f s) =
      ((feed.require count pending s).1, viewed f (feed.require count pending s).2) := by
  unfold Feed.require
  by_cases hc : count ≤ pending.length
  · simp [hc, viewed]
  · simp only [hc, if_false, h.consume]
    rcases feed.consume (Feed.require.gather count) pending s with ⟨_ | _ | _, s'⟩ <;> rfl

theorem drain (h : Alike f feed feed') (s : σ) :
    feed'.drain (f s) = ((feed.drain s).1, viewed f (feed.drain s).2) := by
  unfold Feed.drain
  simp only [h.consume]
  rcases feed.consume keepAll [] s with ⟨b | _ | _, s'⟩
  · exact nomatch b
  · rfl
  · rfl

theorem polls (h : Alike f feed feed') {s s' : σ} {answers : List Answer}
    (hp : feed.Polls s answers s') : feed'.Polls (f s) answers (f s') := by
  induction hp with
  | nil => exact .nil
  | cons hp _ ih => exact .cons (by rw [h, hp]; rfl) ih

/-- Whatever polls are made of the second feed can be made of the first. -/
theorem exists_polls (h : Alike f feed feed') {answers : List Answer} {s : σ} {t : τ}
    (hp : feed'.Polls (f s) answers t) : ∃ s', feed.Polls s answers s' ∧ f s' = t := by
  induction answers generalizing s with
  | nil =>
    cases hp
    exact ⟨s, .nil, rfl⟩
  | cons answer answers ih =>
    obtain _ | ⟨hp, hrest⟩ := hp
    rcases hq : feed.poll s with ⟨answer', s'⟩
    rw [h, hq] at hp
    cases hp
    obtain ⟨last, hlast, rfl⟩ := ih hrest
    exact ⟨last, .cons hq hlast, rfl⟩

end Feed.Alike

variable {f : σ → τ} {feed : Feed σ} {feed' : Feed τ}

private theorem Coalesce.shift_alike (h : Feed.Alike f feed feed') (buffers : Buffers) (s : σ) :
    shift feed' buffers (f s) = ((shift feed buffers s).1, viewed f (shift feed buffers s).2) := by
  unfold shift
  cases settle buffers.pending.reverse with
  | done out => rfl
  | more held =>
    simp only [h.consume]
    rcases feed.consume hold held s with ⟨_ | _ | _, s'⟩ <;> rfl

private theorem Compact.shift_alike (h : Feed.Alike f feed feed') (buffers : Buffers) (s : σ) :
    shift feed' buffers (f s) = ((shift feed buffers s).1, viewed f (shift feed buffers s).2) := by
  unfold shift
  cases release buffers.pending.reverse with
  | done out => rfl
  | more held =>
    simp only [h.consume]
    rcases feed.consume hold held s with ⟨_ | _ | _, s'⟩ <;> rfl

private theorem Chunk.shift_alike (h : Feed.Alike f feed feed') (size : Nat) (buffers : Buffers)
    (s : σ) : shift size feed' buffers (f s) =
      ((shift size feed buffers s).1, viewed f (shift size feed buffers s).2) := by
  unfold shift
  rw [h.require]
  rcases feed.require 1 buffers.pending s with ⟨fault | enough, pending, s'⟩
  · rfl
  match pending with
  | [] => rfl
  | .copy run :: rest => rfl
  | .skip _ :: rest | .delete _ :: rest | .insert _ :: rest =>
    dsimp only [viewed]
    rw [h.require]
    rcases feed.require 1 rest s' with ⟨fault | enough', pending', s''⟩
    · rfl
    cases pending' with
    | nil => rfl
    | cons second rest' =>
      dsimp only [viewed]
      split <;> rfl

private theorem Unchunk.shift_alike (h : Feed.Alike f feed feed') (buffers : Buffers) (s : σ) :
    shift feed' buffers (f s) = ((shift feed buffers s).1, viewed f (shift feed buffers s).2) := by
  unfold shift
  rw [h.require]
  rcases feed.require 1 buffers.pending s with ⟨fault | enough, pending, s'⟩
  · rfl
  cases pending with
  | nil => rfl
  | cons first rest =>
    dsimp only [viewed]
    cases rest.dropWhile (sameRegion first) with
    | cons op left => rfl
    | nil =>
      dsimp only
      rw [h.consume]
      rcases feed.consume (gather first) (first :: rest.takeWhile (sameRegion first)).reverse s'
        with ⟨_ | _ | _, s''⟩ <;> rfl

private theorem Pointwise.shift_alike {υ : Type} (h : Feed.Alike f feed feed')
    (rule : Op → υ → Except Fault Op × υ) (t : υ) (buffers : Buffers) (s : σ) :
    shift rule feed' t buffers (f s) = ((shift rule feed t buffers s).1,
      (shift rule feed t buffers s).2.1, viewed f (shift rule feed t buffers s).2.2) := by
  unfold shift
  rw [h]
  rcases feed.poll s with ⟨fault | - | op, s'⟩
  · rfl
  · rfl
  · dsimp only [viewed]
    rcases rule op t with ⟨_ | _, t'⟩ <;> rfl

theorem Pump.fill_alike (h : Feed.Alike f feed feed') (pump : Pump) (s : σ) :
    pump.fill feed' (f s) =
      ((pump.fill feed s).1, (pump.fill feed s).2.1, f (pump.fill feed s).2.2) := by
  unfold fill
  split
  · rfl
  · rw [h.drain]
    rcases feed.drain s with ⟨_ | _, ops, s'⟩ <;> rfl

private theorem Pump.shift_alike (h : Feed.Alike f feed feed') (pump : Pump) (buffers : Buffers)
    (s : σ) : shift feed' pump buffers (f s) = ((shift feed pump buffers s).1,
      (shift feed pump buffers s).2.1, viewed f (shift feed pump buffers s).2.2) := by
  unfold shift
  rw [fill_alike h]
  rcases pump.fill feed s with ⟨_ | _, pump', s'⟩
  · rfl
  · dsimp only
    split <;> rfl

private theorem Align.shift_alike (h : Feed.Alike f feed feed') (aligner : Aligner)
    (buffers : Buffers) (s : σ) : shift aligner feed' buffers (f s) =
      ((shift aligner feed buffers s).1, viewed f (shift aligner feed buffers s).2) := by
  unfold shift
  rw [h.require]
  rcases feed.require 2 buffers.pending s with ⟨fault | enough, pending, s'⟩
  · rfl
  match enough, pending with
  | false, _ => rfl
  | true, [] => rfl
  | true, [_] => rfl
  | true, a :: b :: rest =>
    dsimp only [viewed]
    rcases a.pair? b with - | ⟨orig, target⟩
    · rfl
    · dsimp only
      rcases aligner.align orig target with _ | _ <;> rfl

namespace Pool

private theorem pump_alike (h : Feed.Alike f feed feed') (pool : Pool) (buffers : Buffers) (s : σ) :
    pump feed' pool buffers (f s) = ((pump feed pool buffers s).1,
      (pump feed pool buffers s).2.1, viewed f (pump feed pool buffers s).2.2) := by
  unfold pump
  split
  · rfl
  split
  · rfl
  split
  · rfl
  cases dispatch pool.looked buffers.pending with
  | done state => rfl
  | more state =>
    dsimp only
    rw [h.consume]
    rcases feed.consume receive state s with ⟨_ | _ | _, s'⟩ <;> rfl

private theorem shift_alike (h : Feed.Alike f feed feed') (pool : Pool) (buffers : Buffers)
    (s : σ) : shift feed' pool buffers (f s) = ((shift feed pool buffers s).1,
      (shift feed pool buffers s).2.1, viewed f (shift feed pool buffers s).2.2) := by
  fun_induction shift feed pool buffers s with
  | case1 pool buffers s fault pool' buffers' s' hp =>
    rw [shift_eq_take, pump_alike h, hp]
    rfl
  | case2 pool buffers s pool' buffers' s' hp hc =>
    rw [shift_eq_take, pump_alike h, hp]
    simp [take, viewed, hc]
  | case3 pool buffers s pool' buffers' s' hp op chain hc =>
    rw [shift_eq_take, pump_alike h, hp]
    simp [take, viewed, hc]
  | case4 pool buffers s pool' buffers' s' hp orig target chain hc fault ha =>
    rw [shift_eq_take, pump_alike h, hp]
    simp [take, viewed, hc, answered, ha]
  | case5 pool buffers s pool' buffers' s' hp orig target chain hc script ha hr ih =>
    rw [shift_eq_take, pump_alike h, hp]
    simp only [take, viewed, hc, answered, ha, hr, if_true]
    exact ih
  | case6 pool buffers s pool' buffers' s' hp orig target chain hc script ha hr =>
    rw [shift_eq_take, pump_alike h, hp]
    simp only [take, viewed, hc, answered, ha, hr, if_false]

end Pool

theorem Layer.shift_alike (h : Feed.Alike f feed feed') (layer : Layer) (s : σ) :
    shift feed' layer (f s) = ((shift feed layer s).1, viewed f (shift feed layer s).2) := by
  obtain ⟨buffers, work⟩ := layer
  cases work with
  | coalesce => simp only [shift, Coalesce.shift_alike h]; rfl
  | compact => simp only [shift, Compact.shift_alike h]; rfl
  | chunk size => simp only [shift, Chunk.shift_alike h]; rfl
  | unchunk => simp only [shift, Unchunk.shift_alike h]; rfl
  | undo => simp only [shift, Pointwise.shift_alike h]; rfl
  | forget => simp only [shift, Pointwise.shift_alike h]; rfl
  | rewind orig => simp only [shift, Pointwise.shift_alike h]; rfl
  | pump pump => simp only [shift, Pump.shift_alike h]; rfl
  | align aligner => simp only [shift, Align.shift_alike h]; rfl
  | pool pool => simp only [shift, Pool.shift_alike h]; rfl

theorem Layer.feed_alike (h : Feed.Alike f feed feed') :
    Feed.Alike (fun state : Layer × σ => (state.1, f state.2)) (Layer.feed feed)
      (Layer.feed feed') := by
  rintro ⟨layer, s⟩
  change Layer.poll feed' (layer, f s) = viewed _ (Layer.poll feed (layer, s))
  unfold Layer.poll
  dsimp only
  cases layer.buffers.ready with
  | cons op ready => rfl
  | nil =>
    rw [Layer.shift_alike h]
    rcases Layer.shift feed layer s with ⟨fault | _, after, s'⟩
    · rfl
    · dsimp only [viewed]
      cases after.buffers.ready <;> rfl

end BytePatch
