import BytePatch.Proofs.Queue.Polls
import BytePatch.Queue.Layer

/-! How often a layer polls the feed below. All of its polls for one refill give an op, except perhaps
the last one: a poll that fails ends the refill, and one that finds nothing is not made again. -/
namespace BytePatch

open Feed (given)

variable {σ α β : Type}

namespace Feed

/-- Every answer gave an op. -/
def Full (answers : List Answer) : Prop := answers.length = (given answers).length

/-- No more than one of the answers gave no op. -/
def Brief (answers : List Answer) : Prop := answers.length ≤ (given answers).length + 1

/-- From one state to the other the feed has been polled, and not again once it gave no op. -/
def Briefly (feed : Feed σ) (s s' : σ) : Prop := ∃ answers, feed.Polls s answers s' ∧ Brief answers

theorem full_nil : Full [] := rfl

theorem Full.op {answers : List Answer} (h : Full answers) (op : Op) :
    Full (.ok (some op) :: answers) :=
  congrArg (· + 1) h

theorem Brief.op {answers : List Answer} (h : Brief answers) (op : Op) :
    Brief (.ok (some op) :: answers) :=
  Nat.succ_le_succ h

theorem Full.brief {answers : List Answer} (h : Full answers) : Brief answers := by
  unfold Brief
  rw [h]
  exact Nat.le_succ _

theorem brief_singleton (answer : Answer) : Brief [answer] :=
  Nat.succ_le_succ (Nat.zero_le _)

theorem Full.append_brief {xs ys : List Answer} (hx : Full xs) (hy : Brief ys) : Brief (xs ++ ys) := by
  unfold Full Brief at *
  simp only [given_append, List.length_append]
  omega

theorem Briefly.refl (feed : Feed σ) (s : σ) : feed.Briefly s s := ⟨[], .nil, full_nil.brief⟩

theorem Briefly.single {feed : Feed σ} {s s' : σ} {answer : Answer}
    (h : feed.poll s = (answer, s')) : feed.Briefly s s' :=
  ⟨[answer], .single h, brief_singleton answer⟩

variable (feed : Feed σ)

theorem effort_consume (step : α → Op → Next α β) (a : α) (s : σ) :
    ∃ answers, feed.Polls s answers (feed.consume step a s).2 ∧ Brief answers ∧
      ∀ result, (feed.consume step a s).1 = .done result → Full answers := by
  induction a, s using Feed.consume.induct feed step with
  | case1 a s fault s' hp =>
    rw [consume_failed hp]
    exact ⟨_, .single hp, brief_singleton _, fun _ hr => by cases hr⟩
  | case2 a s s' hp =>
    rw [consume_dry hp]
    exact ⟨_, .single hp, brief_singleton _, fun _ hr => by cases hr⟩
  | case3 a s op s' hp b hb =>
    rw [consume_done hp hb]
    exact ⟨_, .single hp, brief_singleton _, fun _ _ => full_nil.op op⟩
  | case4 a s op s' hp a' hm ih =>
    rw [consume_more hp hm]
    obtain ⟨answers, hpolls, hbrief, hfull⟩ := ih
    exact ⟨_, .cons hp hpolls, hbrief.op op, fun result hr => (hfull result hr).op op⟩

theorem briefly_consume (step : α → Op → Next α β) (a : α) (s : σ) :
    feed.Briefly s (feed.consume step a s).2 := by
  obtain ⟨answers, hpolls, hbrief, -⟩ := feed.effort_consume step a s
  exact ⟨answers, hpolls, hbrief⟩

theorem effort_require (count : Nat) (pending : List Op) (s : σ) :
    ∃ answers, feed.Polls s answers (feed.require count pending s).2.2 ∧ Brief answers ∧
      ∀ enough, (feed.require count pending s).1 = .ok enough →
        count ≤ (feed.require count pending s).2.1.length → Full answers := by
  obtain ⟨_, -, -, hend⟩ := feed.polls_require count pending s
  unfold require at hend ⊢
  by_cases hc : count ≤ pending.length
  · rw [if_pos hc]
    exact ⟨[], .nil, full_nil.brief, fun _ _ _ => full_nil⟩
  rw [if_neg hc] at hend ⊢
  obtain ⟨answers, hpolls, hbrief, hfull⟩ := feed.effort_consume (require.gather count) pending s
  refine ⟨answers, ?_⟩
  generalize feed.consume (require.gather count) pending s = result at hend hpolls hfull
  obtain ⟨outcome, s'⟩ := result
  cases outcome with
  | done pending' => exact ⟨hpolls, hbrief, fun _ _ _ => hfull _ rfl⟩
  | dry pending' => exact ⟨hpolls, hbrief, fun _ _ hl => absurd hl (Nat.not_le.2 hend.2.2)⟩
  | failed fault pending' => exact ⟨hpolls, hbrief, nofun⟩

theorem briefly_require (count : Nat) (pending : List Op) (s : σ) :
    feed.Briefly s (feed.require count pending s).2.2 := by
  obtain ⟨answers, hpolls, hbrief, -⟩ := feed.effort_require count pending s
  exact ⟨answers, hpolls, hbrief⟩

theorem briefly_drain (s : σ) : feed.Briefly s (feed.drain s).2.2 := by
  have h := feed.briefly_consume keepAll [] s
  unfold drain
  split <;> rename_i heq <;> rwa [heq] at h

end Feed

theorem Script.length_le_weight (ops : Script) : ops.length ≤ weight ops := by
  induction ops with
  | nil => exact Nat.le_refl _
  | cons op ops ih =>
    have := op.weight_pos
    simp only [List.length_cons, weight_cons]
    omega

variable (feed : Feed σ)

private theorem Coalesce.briefly_shift (buffers : Buffers) (s : σ) :
    feed.Briefly s (shift feed buffers s).2.2 := by
  unfold shift
  cases settle buffers.pending.reverse with
  | done out => exact .refl feed s
  | more held =>
    have h := feed.briefly_consume hold held s
    dsimp only
    split <;> rename_i heq <;> rwa [heq] at h

private theorem Compact.briefly_shift (buffers : Buffers) (s : σ) :
    feed.Briefly s (shift feed buffers s).2.2 := by
  unfold shift
  cases release buffers.pending.reverse with
  | done out => exact .refl feed s
  | more held =>
    have h := feed.briefly_consume hold held s
    dsimp only
    split <;> rename_i heq <;> rwa [heq] at h

private theorem Chunk.briefly_shift (size : Nat) (buffers : Buffers) (s : σ) :
    feed.Briefly s (shift size feed buffers s).2.2 := by
  obtain ⟨answers, hpolls, hbrief, hfull⟩ := feed.effort_require 1 buffers.pending s
  unfold shift
  split <;> rename_i heq <;> rw [heq] at hpolls hfull
  · exact ⟨answers, hpolls, hbrief⟩
  · exact ⟨answers, hpolls, hbrief⟩
  · exact ⟨answers, hpolls, hbrief⟩
  · next first pending s' _ =>
    have hfirst := hfull _ rfl (Nat.le_add_left 1 pending.length)
    obtain ⟨more, hmore, hbrief'⟩ := feed.briefly_require 1 pending s'
    have h : feed.Briefly s (feed.require 1 pending s').2.2 :=
      ⟨answers ++ more, hpolls.append hmore, hfirst.append_brief hbrief'⟩
    split <;> rename_i heq' <;> rw [heq'] at h
    · exact h
    · exact h
    · split <;> exact h

private theorem Unchunk.briefly_shift (buffers : Buffers) (s : σ) :
    feed.Briefly s (shift feed buffers s).2.2 := by
  obtain ⟨answers, hpolls, hbrief, hfull⟩ := feed.effort_require 1 buffers.pending s
  unfold shift
  split <;> rename_i heq <;> rw [heq] at hpolls hfull
  · exact ⟨answers, hpolls, hbrief⟩
  · exact ⟨answers, hpolls, hbrief⟩
  · next first pending s' =>
    dsimp only
    split
    · exact ⟨answers, hpolls, hbrief⟩
    · have hfirst := hfull _ rfl (Nat.le_add_left 1 pending.length)
      obtain ⟨more, hmore, hbrief'⟩ := feed.briefly_consume (gather first)
        (first :: pending.takeWhile (sameRegion first)).reverse s'
      have h : feed.Briefly s (feed.consume (gather first)
          (first :: pending.takeWhile (sameRegion first)).reverse s').2 :=
        ⟨answers ++ more, hpolls.append hmore, hfirst.append_brief hbrief'⟩
      split <;> rename_i heq' <;> rwa [heq'] at h

private theorem Pointwise.briefly_shift {τ : Type} (rule : Op → τ → Except Fault Op × τ) (t : τ)
    (buffers : Buffers) (s : σ) : feed.Briefly s (shift rule feed t buffers s).2.2.2 := by
  unfold shift
  split <;> rename_i hp
  · exact .single hp
  · exact .single hp
  · split <;> exact .single hp

private theorem Pump.briefly_shift (pump : Pump) (buffers : Buffers) (s : σ) :
    feed.Briefly s (shift feed pump buffers s).2.2.2 := by
  have hfill : feed.Briefly s (pump.fill feed s).2.2 := by
    have h := feed.briefly_drain s
    unfold fill
    split
    · exact .refl feed s
    · split <;> rename_i heq <;> rwa [heq] at h
  unfold shift
  split <;> rename_i heq <;> rw [heq] at hfill
  · exact hfill
  · split <;> exact hfill

private theorem Align.briefly_shift (aligner : Aligner) (buffers : Buffers) (s : σ) :
    feed.Briefly s (shift aligner feed buffers s).2.2 := by
  have h := feed.briefly_require 2 buffers.pending s
  unfold shift
  split <;> rename_i heq <;> rw [heq] at h
  · exact h
  · split
    · exact h
    · split <;> exact h
  · exact h

namespace Pool

private theorem effort_pump (pool : Pool) (buffers : Buffers) (s : σ) :
    ∃ answers, feed.Polls s answers (pump feed pool buffers s).2.2.2 ∧ Feed.Brief answers ∧
      ((pump feed pool buffers s).1 = .ok () →
        (pump feed pool buffers s).2.1.isOpen = false ∨ Feed.Full answers) ∧
      (pool.isOpen = false → answers = [] ∧ (pump feed pool buffers s).2.1.isOpen = false) := by
  unfold pump
  split
  · exact ⟨[], .nil, Feed.full_nil.brief, nofun, fun _ => ⟨rfl, rfl⟩⟩
  split
  · next hclosed =>
    have hclosed : pool.isOpen = false := by simpa using hclosed
    exact ⟨[], .nil, Feed.full_nil.brief, fun _ => .inl hclosed, fun h => ⟨rfl, h⟩⟩
  next hopen =>
  have hopen : ¬ pool.isOpen = false := by simpa using hopen
  split
  · exact ⟨[], .nil, Feed.full_nil.brief, fun _ => .inr Feed.full_nil, fun h => absurd h hopen⟩
  cases dispatch pool.looked buffers.pending with
  | done state =>
    exact ⟨[], .nil, Feed.full_nil.brief, fun _ => .inr Feed.full_nil, fun h => absurd h hopen⟩
  | more state =>
    obtain ⟨answers, hpolls, hbrief, hfull⟩ := feed.effort_consume receive state s
    refine ⟨answers, ?_⟩
    dsimp only
    generalize feed.consume receive state s = result at hpolls hfull
    obtain ⟨outcome, s'⟩ := result
    cases outcome with
    | done state' =>
      exact ⟨hpolls, hbrief, fun _ => .inr (hfull _ rfl), fun h => absurd h hopen⟩
    | dry state' => exact ⟨hpolls, hbrief, fun _ => .inl rfl, fun h => absurd h hopen⟩
    | failed fault state' => exact ⟨hpolls, hbrief, nofun, fun h => absurd h hopen⟩

private theorem effort_shift (pool : Pool) (buffers : Buffers) (s : σ) :
    ∃ answers, feed.Polls s answers (shift feed pool buffers s).2.2.2 ∧ Feed.Brief answers ∧
      (pool.isOpen = false → answers = []) := by
  have pumped {pool : Pool} {buffers : Buffers} {s s' : σ} {result : Except Fault Unit}
      {pool' : Pool} {buffers' : Buffers}
      (hp : pump feed pool buffers s = (result, pool', buffers', s')) :
      ∃ answers, feed.Polls s answers s' ∧ Feed.Brief answers ∧
        (pool.isOpen = false → answers = []) := by
    obtain ⟨answers, hpolls, hbrief, -, hclosed⟩ := effort_pump feed pool buffers s
    rw [hp] at hpolls
    exact ⟨answers, hpolls, hbrief, fun h => (hclosed h).1⟩
  -- Pairs of which nothing comes make the pool go back to the feed, but not once it is closed.
  fun_induction shift feed pool buffers s with
  | case5 pool buffers s pool' buffers' s' hp orig target chain hc script ha hr ih =>
    obtain ⟨answers, hpolls, hbrief, hend, hclosed⟩ := effort_pump feed pool buffers s
    rw [hp] at hpolls hend hclosed
    obtain ⟨more, hmore, hbrief', hclosed'⟩ := ih
    refine ⟨answers ++ more, hpolls.append hmore, ?_, fun h => ?_⟩
    · rcases hend rfl with hshut | hfull
      · rwa [hclosed' hshut, List.append_nil]
      · exact hfull.append_brief hbrief'
    · obtain ⟨rfl, hshut⟩ := hclosed h
      exact hclosed' hshut
  | case1 pool buffers s fault pool' buffers' s' hp => exact pumped hp
  | case2 pool buffers s pool' buffers' s' hp => exact pumped hp
  | case3 pool buffers s pool' buffers' s' hp => exact pumped hp
  | case4 pool buffers s pool' buffers' s' hp => exact pumped hp
  | case6 pool buffers s pool' buffers' s' hp => exact pumped hp

private theorem briefly_shift (pool : Pool) (buffers : Buffers) (s : σ) :
    feed.Briefly s (shift feed pool buffers s).2.2.2 := by
  obtain ⟨answers, hpolls, hbrief, -⟩ := effort_shift feed pool buffers s
  exact ⟨answers, hpolls, hbrief⟩

end Pool

namespace Layer

/-- Only the last poll that a refill makes may have given no op. -/
theorem briefly_shift (layer : Layer) (s : σ) : feed.Briefly s (shift feed layer s).2.2 := by
  obtain ⟨buffers, work⟩ := layer
  cases work with
  | coalesce => exact Coalesce.briefly_shift feed buffers s
  | compact => exact Compact.briefly_shift feed buffers s
  | chunk size => exact Chunk.briefly_shift feed size buffers s
  | unchunk => exact Unchunk.briefly_shift feed buffers s
  | undo => exact Pointwise.briefly_shift feed Pointwise.undo () buffers s
  | forget => exact Pointwise.briefly_shift feed Pointwise.forget () buffers s
  | rewind orig => exact Pointwise.briefly_shift feed Op.rewind orig buffers s
  | pump pump => exact Pump.briefly_shift feed pump buffers s
  | align aligner => exact Align.briefly_shift feed aligner buffers s
  | pool pool => exact Pool.briefly_shift feed pool buffers s

theorem briefly_poll (state : Layer × σ) : feed.Briefly state.2 (poll feed state).2.2 := by
  unfold poll
  split
  · exact .refl feed state.2
  · have h := briefly_shift feed state.1 state.2
    split <;> rename_i heq <;> rw [heq] at h
    · exact h
    · split <;> exact h

variable {feed}

/-- For each poll of a layer, no more than one poll of the feed below gives no op. -/
theorem polls_below {state after : Layer × σ} {polled : List Answer}
    (h : (Layer.feed feed).Polls state polled after) :
    ∃ answers, feed.Polls state.2 answers after.2 ∧
      answers.length ≤ (given answers).length + polled.length := by
  induction h with
  | nil => exact ⟨[], .nil, Nat.le_refl _⟩
  | @cons state after last answer polled hp _ ih =>
    obtain ⟨answers, hpolls, hbrief⟩ := briefly_poll feed state
    have hafter : (poll feed state).2 = after := congrArg Prod.snd hp
    rw [hafter] at hpolls
    obtain ⟨more, hmore, hlength⟩ := ih
    refine ⟨answers ++ more, hpolls.append hmore, ?_⟩
    unfold Feed.Brief at hbrief
    simp only [Feed.given_append, List.length_append, List.length_cons]
    omega

end Layer

end BytePatch
