import BytePatch.Proofs.Queue.Records
import BytePatch.Proofs.Stage.Effort

/-! How often the levels of a stack are polled. A poll on top costs as many polls of the level below as
that has ops to give, and one more at most, so all together are bounded by what the stack weighs. -/
namespace BytePatch

open Feed (given)

variable {σ : Type}

theorem Feed.polls_recorded {feed : Feed σ} {state after : σ × List Answer} {polled : List Answer}
    (h : feed.recorded.Polls state polled after) :
    feed.Polls state.1 polled after.1 ∧ after.2 = state.2 ++ polled := by
  refine ⟨feed.alike_recorded.polls h, ?_⟩
  induction h with
  | nil => simp
  | @cons state after last answer polled hp _ ih =>
    cases hp
    rw [ih]
    simp

namespace Recorded

/-- Neither the base nor any layer has been polled more often than that. -/
def PolledWithin (bound : Nat) : (depth : Nat) → Recorded σ depth → Prop
  | 0, record => record.2.length ≤ bound
  | depth + 1, record => record.2.length ≤ bound ∧ PolledWithin bound depth record.1.2

theorem PolledWithin.mono {bound bound' : Nat} (hle : bound ≤ bound') {depth : Nat}
    {record : Recorded σ depth} (h : PolledWithin bound depth record) :
    PolledWithin bound' depth record := by
  induction depth with
  | zero => exact Nat.le_trans h hle
  | succ depth ih => exact ⟨Nat.le_trans h.1 hle, ih h.2⟩

/-- Each level adds no more polls than there are ops in what is below it. -/
theorem polledWithin_polls {base : Feed σ} {depth : Nat} {s : Stack σ depth}
    {record : Recorded σ depth} {polled : List Answer}
    (h : (feed base depth).Polls (blank depth s) polled record) :
    PolledWithin (polled.length + depth * (feed base depth).rank (blank depth s)) depth record := by
  induction depth generalizing polled with
  | zero =>
    obtain ⟨-, hlog⟩ := Feed.polls_recorded h
    have hlog : record.2 = polled := hlog
    exact hlog ▸ Nat.le_add_right _ _
  | succ depth ih =>
    obtain ⟨layer, below⟩ := s
    obtain ⟨hpolls, hlog⟩ := Feed.polls_recorded h
    have hlog : record.2 = polled := hlog
    obtain ⟨answers, hanswers, hlength⟩ := Layer.polls_below hpolls
    have hgiven := Script.length_le_weight (given answers)
    have hrank := Feed.rank_polls hanswers
    have hbelow : (feed base depth).rank (blank depth below) ≤
        (feed base (depth + 1)).rank (blank (depth + 1) (layer, below)) := Nat.le_add_left _ _
    refine ⟨hlog ▸ Nat.le_add_right _ _, (ih hanswers).mono ?_⟩
    dsimp only [blank] at hrank
    calc answers.length + depth * (feed base depth).rank (blank depth below)
        ≤ (polled.length + (feed base depth).rank (blank depth below)) +
            depth * (feed base depth).rank (blank depth below) := by omega
      _ = polled.length + (depth + 1) * (feed base depth).rank (blank depth below) := by
        rw [Nat.succ_mul]; omega
      _ ≤ polled.length + (depth + 1) *
            (feed base (depth + 1)).rank (blank (depth + 1) (layer, below)) :=
        Nat.add_le_add_left (Nat.mul_le_mul_left _ hbelow) _

/-- Polls up to the first one that gives no op, and all polls below that are made for them. -/
theorem polledWithin_briefly {base : Feed σ} {depth : Nat} {s : Stack σ depth}
    {record : Recorded σ depth} (h : (feed base depth).Briefly (blank depth s) record) :
    PolledWithin ((depth + 1) * (feed base depth).rank (blank depth s) + 1) depth record := by
  obtain ⟨answers, hpolls, hbrief⟩ := h
  have hgiven := Script.length_le_weight (given answers)
  have hrank := Feed.rank_polls hpolls
  refine (polledWithin_polls hpolls).mono ?_
  unfold Feed.Brief at hbrief
  rw [Nat.succ_mul]
  omega

/-- Refill the topmost layer, or a bare base in its own way. -/
def shift (base : Feed σ) (refill : σ → Except Fault Unit × σ) :
    (depth : Nat) → Recorded σ depth → Except Fault Unit × Recorded σ depth
  | 0, (s, log) => ((refill s).1, (refill s).2, log)
  | depth + 1, ((layer, below), log) =>
    let (answer, layer, below) := Layer.shift (feed base depth) layer below
    (answer, (layer, below), log)

theorem polledWithin_shift (base : Feed σ) (refill : σ → Except Fault Unit × σ) {depth : Nat}
    (s : Stack σ depth) :
    PolledWithin (depth * (feed base depth).rank (blank depth s) + 1) depth
      (shift base refill depth (blank depth s)).2 := by
  cases depth with
  | zero => exact Nat.zero_le _
  | succ depth =>
    obtain ⟨layer, below⟩ := s
    have hbelow := polledWithin_briefly
      (Layer.briefly_shift (feed base depth) layer (blank depth below))
    refine ⟨Nat.zero_le _, hbelow.mono ?_⟩
    refine Nat.succ_le_succ (Nat.mul_le_mul_left _ ?_)
    exact Nat.le_add_left _ _

theorem rank_stack (base : Base σ) {depth : Nat} (record : Recorded σ depth) :
    (Stack.feed base depth).rank record.stack = (feed base.toFeed depth).rank record := by
  induction depth with
  | zero => rfl
  | succ depth ih => exact congrArg (record.1.1.weight + ·) (ih record.1.2)

theorem shift_queue {depth : Nat} (before : Recorded Source depth) :
    Queue.shift ⟨depth, before.stack⟩ =
      ((shift Source.feed Source.shift depth before).1,
        ⟨depth, (shift Source.feed Source.shift depth before).2.stack⟩) := by
  cases depth with
  | zero => rfl
  | succ depth =>
    obtain ⟨⟨layer, below⟩, log⟩ := before
    have halike := Layer.shift_alike (alike_stack Source.base depth) layer below
    simp only [Queue.shift, stack, halike]
    rfl

theorem drain_queue {depth : Nat} (before : Recorded Source depth) :
    Queue.drain ⟨depth, before.stack⟩ =
      (((feed Source.feed depth).drain before).1, ((feed Source.feed depth).drain before).2.1,
        ⟨depth, ((feed Source.feed depth).drain before).2.2.stack⟩) := by
  have halike := (alike_stack Source.base depth).drain before
  simp only [Queue.drain, halike]
  rfl

end Recorded

end BytePatch
