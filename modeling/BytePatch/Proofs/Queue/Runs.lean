import BytePatch.Queue.Basic

/-! Feeds known by what they run through: a list of ops, poll by poll, and then nothing more or a
failure. Whoever consumes such a feed to its end has seen exactly that list. -/
namespace BytePatch

namespace Feed
variable {σ α β : Type} {feed : Feed σ}

theorem consume_failed {s s' : σ} {fault : Fault} (h : feed.poll s = (.error fault, s'))
    (step : α → Op → Next α β) (state : α) :
    feed.consume step state s = (.failed fault state, s') := by
  rw [consume]
  split <;> simp_all

theorem consume_dry {s s' : σ} (h : feed.poll s = (.ok none, s'))
    (step : α → Op → Next α β) (state : α) :
    feed.consume step state s = (.dry state, s') := by
  rw [consume]
  split <;> simp_all

theorem consume_more {s s' : σ} {op : Op} (h : feed.poll s = (.ok (some op), s'))
    {step : α → Op → Next α β} {state state' : α} (hs : step state op = .more state') :
    feed.consume step state s = feed.consume step state' s' := by
  rw [consume]
  split <;> simp_all

theorem consume_done {s s' : σ} {op : Op} (h : feed.poll s = (.ok (some op), s'))
    {step : α → Op → Next α β} {state : α} {result : β} (hs : step state op = .done result) :
    feed.consume step state s = (.done result, s') := by
  rw [consume]
  split <;> simp_all

/-- Polls give the ops of a list one by one. The poll after them finds nothing or meets a
failure. -/
inductive Runs (feed : Feed σ) : σ → List Op → Option Fault → Prop
  | dry {s s'} : feed.poll s = (.ok none, s') → Runs feed s [] none
  | failed {s s' fault} : feed.poll s = (.error fault, s') → Runs feed s [] (some fault)
  | op {s s' op ops ending} : feed.poll s = (.ok (some op), s') → Runs feed s' ops ending →
      Runs feed s (op :: ops) ending

/-- Polls give the ops of a list one by one, and the poll after them finds nothing. -/
abbrev Yields (feed : Feed σ) (s : σ) (ops : List Op) : Prop := feed.Runs s ops none

/-- Every feed runs dry at last, or fails. -/
theorem exists_runs (feed : Feed σ) (s : σ) : ∃ ops ending, feed.Runs s ops ending := by
  rcases hp : feed.poll s with ⟨fault | (- | op), s'⟩
  · exact ⟨[], some fault, .failed hp⟩
  · exact ⟨[], none, .dry hp⟩
  · have hless : feed.rank s' < feed.rank s := by
      have hr := feed.rank_poll s
      have hw := op.weight_pos
      rw [hp] at hr
      exact Nat.lt_of_lt_of_le (Nat.lt_add_of_pos_right hw) hr
    obtain ⟨ops, ending, hrun⟩ := feed.exists_runs s'
    exact ⟨op :: ops, ending, .op hp hrun⟩
termination_by feed.rank s

/-- How a run that ends so is answered. -/
def answer : Option Fault → Except Fault Unit
  | none => .ok ()
  | some fault => .error fault

/-- How a consumer that is never done comes out of a run that ends so. -/
def outcome (ending : Option Fault) (state : α) : Outcome α β :=
  match ending with
  | none => .dry state
  | some fault => .failed fault state

private theorem Runs.consume_keepAll {s : σ} {ops : List Op} {ending : Option Fault}
    (h : feed.Runs s ops ending) (kept : List Op) :
    ∃ s', feed.consume keepAll kept s = (outcome ending (ops.reverse ++ kept), s') := by
  induction h generalizing kept with
  | dry hp => exact ⟨_, consume_dry hp _ _⟩
  | failed hp => exact ⟨_, consume_failed hp _ _⟩
  | @op s s' op ops ending hp _ ih =>
    obtain ⟨last, hl⟩ := ih (op :: kept)
    refine ⟨last, ?_⟩
    rw [consume_more hp (show keepAll kept op = .more (op :: kept) from rfl), hl]
    simp

theorem Runs.drain {s : σ} {ops : List Op} {ending : Option Fault} (h : feed.Runs s ops ending) :
    ∃ s', feed.drain s = (answer ending, ops, s') := by
  obtain ⟨last, hl⟩ := h.consume_keepAll []
  refine ⟨last, ?_⟩
  cases ending <;> simp [Feed.drain, hl, answer, outcome]

/-- All that a feed has to give. -/
def held (feed : Feed σ) (s : σ) : Script := (feed.drain s).2.1

theorem Runs.held_eq {s : σ} {ops : List Op} {ending : Option Fault} (h : feed.Runs s ops ending) :
    feed.held s = ops := by
  obtain ⟨last, hd⟩ := h.drain
  rw [held, hd]

theorem held_op {s s' : σ} {op : Op} (h : feed.poll s = (.ok (some op), s')) :
    feed.held s = op :: feed.held s' := by
  obtain ⟨ops, ending, hruns⟩ := feed.exists_runs s'
  rw [(Runs.op h hruns).held_eq, hruns.held_eq]

theorem held_dry {s s' : σ} (h : feed.poll s = (.ok none, s')) : feed.held s = [] :=
  (Runs.dry h).held_eq

theorem held_failed {s s' : σ} {fault : Fault} (h : feed.poll s = (.error fault, s')) :
    feed.held s = [] :=
  (Runs.failed h).held_eq

end Feed

theorem Layer.poll_pump {σ : Type} {feed : Feed σ} {pump : Pump} {passed coming : List Op}
    {drained : Bool} {op : Op} {s s' : σ}
    (h : pump.fill feed s = (.ok (), ⟨passed, op :: coming, drained⟩, s')) :
    Layer.poll feed (.new (.pump pump), s) =
      (.ok (some op), (.new (.pump ⟨op :: passed, coming, drained⟩), s')) := by
  simp [Layer.poll, Layer.shift, Layer.new, Buffers.empty, Pump.shift, h, Buffers.pushReady]

theorem Layer.poll_pump_failed {σ : Type} {feed : Feed σ} {pump pump' : Pump} {fault : Fault}
    {s s' : σ} (h : pump.fill feed s = (.error fault, pump', s')) :
    Layer.poll feed (.new (.pump pump), s) = (.error fault, (.new (.pump pump'), s')) := by
  simp [Layer.poll, Layer.shift, Layer.new, Buffers.empty, Pump.shift, h]

theorem Pump.fill_again {σ : Type} {feed : Feed σ} {pump pump' : Pump} {s s' : σ}
    (h : pump.fill feed s = (.ok (), pump', s')) : pump'.fill feed s' = (.ok (), pump', s') := by
  have hdrained : pump'.drained = true := by
    unfold fill at h
    split at h
    · cases h
      assumption
    · split at h <;> cases h
      rfl
  rw [fill, if_pos hdrained]

/-- A poll that fills a pump is answered as if the pump had been filled before. -/
theorem Layer.poll_pump_filled {σ : Type} {feed : Feed σ} {pump pump' : Pump} {s s' : σ}
    (h : pump.fill feed s = (.ok (), pump', s')) :
    Layer.poll feed (.new (.pump pump), s) = Layer.poll feed (.new (.pump pump'), s') := by
  simp only [Layer.poll, Layer.new, Buffers.empty, Layer.shift, Pump.shift, h, Pump.fill_again h]

theorem Source.yields_list (ops : List Op) : feed.Yields (ofList ops) ops := by
  induction ops with
  | nil => exact .dry rfl
  | cons op ops ih => exact .op rfl ih

theorem Source.require_nil : feed.require 2 [] (ofList []) = (.ok false, [], ofList []) := by
  have hpoll : feed.poll (ofList []) = (.ok none, ofList []) := rfl
  unfold Feed.require
  rw [if_neg (by decide), Feed.consume_dry hpoll]

theorem Feed.require_pair {σ : Type} {feed : Feed σ} {a b : Op} {s s' s'' : σ}
    (hfirst : feed.poll s = (.ok (some a), s')) (hsecond : feed.poll s' = (.ok (some b), s'')) :
    feed.require 2 [] s = (.ok true, [a, b], s'') := by
  have hmore : require.gather 2 [] a = .more [a] := rfl
  have hdone : require.gather 2 [a] b = .done [a, b] := rfl
  unfold require
  rw [if_neg (by decide), consume_more hfirst hmore, consume_done hsecond hdone]

theorem Feed.require_last {σ : Type} {feed : Feed σ} {op : Op} {s s' s'' : σ}
    (hop : feed.poll s = (.ok (some op), s')) (hdry : feed.poll s' = (.ok none, s'')) :
    feed.require 2 [] s = (.ok false, [op], s'') := by
  have hmore : require.gather 2 [] op = .more [op] := rfl
  unfold require
  rw [if_neg (by decide), consume_more hop hmore, consume_dry hdry]

theorem Source.require_pair (a b : Op) (ops : Script) :
    feed.require 2 [] (ofList (a :: b :: ops)) = (.ok true, [a, b], ofList ops) :=
  Feed.require_pair rfl rfl

namespace Queue

/-- Polls of the queue give the ops of a list one by one, and end as said. -/
def Runs (queue : Queue) (ops : List Op) (ending : Option Fault) : Prop :=
  (Stack.feed Source.base queue.depth).Runs queue.stack ops ending

theorem poll_of_stack {depth : Nat} {stack after : Stack Source depth} {answer : Answer}
    (h : (Stack.feed Source.base depth).poll stack = (answer, after)) :
    (⟨depth, stack⟩ : Queue).poll = (answer, ⟨depth, after⟩) := by
  simp [Queue.poll, h]

theorem drain_of_stack {depth : Nat} {stack after : Stack Source depth} {answer : Except Fault Unit}
    {ops : List Op} (h : (Stack.feed Source.base depth).drain stack = (answer, ops, after)) :
    (⟨depth, stack⟩ : Queue).drain = (answer, ops, ⟨depth, after⟩) := by
  simp [Queue.drain, h]

private theorem poll_stack {queue after : Queue} {answer : Answer} (h : queue.poll = (answer, after)) :
    ∃ stack, after = ⟨queue.depth, stack⟩ ∧
      (Stack.feed Source.base queue.depth).poll queue.stack = (answer, stack) := by
  cases h
  exact ⟨_, rfl, rfl⟩

theorem runs_dry {queue after : Queue} (h : queue.poll = (.ok none, after)) :
    queue.Runs [] none := by
  obtain ⟨stack, -, hpoll⟩ := poll_stack h
  exact .dry hpoll

theorem runs_failed {queue after : Queue} {fault : Fault} (h : queue.poll = (.error fault, after)) :
    queue.Runs [] (some fault) := by
  obtain ⟨stack, -, hpoll⟩ := poll_stack h
  exact .failed hpoll

theorem Runs.cons {queue after : Queue} {op : Op} {ops : List Op} {ending : Option Fault}
    (h : queue.poll = (.ok (some op), after)) (hrest : after.Runs ops ending) :
    queue.Runs (op :: ops) ending := by
  obtain ⟨stack, rfl, hpoll⟩ := poll_stack h
  exact .op hpoll hrest

/-- Polls of the queue give the ops of a list one by one and then nothing. -/
abbrev Yields (queue : Queue) (ops : List Op) : Prop := queue.Runs ops none

theorem Runs.drain {queue : Queue} {ops : List Op} {ending : Option Fault}
    (h : queue.Runs ops ending) : ∃ after, queue.drain = (Feed.answer ending, ops, after) := by
  obtain ⟨last, hl⟩ := Feed.Runs.drain h
  exact ⟨⟨queue.depth, last⟩, by simp [Queue.drain, hl]⟩

theorem yields_list (ops : List Op) : (ofSource (.ofList ops)).Yields ops :=
  Source.yields_list ops

theorem Yields.encode {queue : Queue} {ops : List Op} (h : queue.Yields ops) :
    queue.encode.1 = .ok (Script.encode ops) := by
  obtain ⟨after, hd⟩ := Runs.drain h
  simp [Queue.encode, hd, Feed.answer]

end Queue

end BytePatch
