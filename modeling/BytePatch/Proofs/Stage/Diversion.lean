import BytePatch.Proofs.Stage.Undo

/-! Ops offered to a pump by turns with polls of it. What is offered before the first poll goes
through the layers below, which take each op back or make it forget. The first poll fills the pump,
which from then on keeps what is offered as it is. -/
namespace BytePatch

/-- The two kinds of layer that change every op for itself and need nothing to do so. -/
inductive Rewriter where
  | undo
  | forget
deriving DecidableEq

namespace Rewriter

def work : Rewriter → Work
  | .undo => .undo
  | .forget => .forget

def rewrite : Rewriter → Op → Except Fault Op
  | .undo, op => op.undo
  | .forget, op => .ok op.forget

/-- What layers on top of each other make of an op, the lowest first. -/
def rewriteAll (rewriters : List Rewriter) (op : Op) : Except Fault Op :=
  rewriters.foldlM (fun op rewriter => rewriter.rewrite op) op

/-- An answer with its op rewritten, or why it cannot be. -/
def answered (rewriter : Rewriter) : Answer → Answer
  | .ok (some op) => (rewriter.rewrite op).map some
  | answer => answer

theorem foldl_answered_of_ne (rewriters : List Rewriter) (answer : Answer)
    (h : ∀ op, answer ≠ .ok (some op)) :
    rewriters.foldl (fun answer rewriter => rewriter.answered answer) answer = answer := by
  induction rewriters with
  | nil => rfl
  | cons rewriter rewriters ih =>
    rcases answer with fault | - | op
    · exact ih
    · exact ih
    · exact absurd rfl (h op)

theorem foldl_answered (rewriters : List Rewriter) (op : Op) :
    rewriters.foldl (fun answer rewriter => rewriter.answered answer) (.ok (some op)) =
      (rewriteAll rewriters op).map some := by
  induction rewriters generalizing op with
  | nil => rfl
  | cons rewriter rewriters ih =>
    rw [List.foldl_cons, rewriteAll, List.foldlM_cons, answered]
    cases rewriter.rewrite op with
    | error fault => exact foldl_answered_of_ne rewriters (.error fault) nofun
    | ok op' => exact ih op'

end Rewriter

namespace Layer
variable {σ : Type}

theorem poll_rewriter (below : Feed σ) (rewriter : Rewriter) (s : σ) :
    poll below (.new rewriter.work, s) =
      (rewriter.answered (below.poll s).1, .new rewriter.work, (below.poll s).2) := by
  cases rewriter with
  | undo =>
    rw [Rewriter.work, poll_undo]
    rcases below.poll s with ⟨fault | - | op, s'⟩
    · rfl
    · rfl
    · cases hu : op.undo <;> simp [Rewriter.answered, Rewriter.rewrite, hu, Except.map]
  | forget =>
    rw [Rewriter.work, poll_forget]
    rcases below.poll s with ⟨fault | - | op, s'⟩ <;> rfl

end Layer

namespace Queue

/-- An op offered, or a poll. -/
inductive Turn where
  | offer (op : Op)
  | poll
deriving DecidableEq

namespace Turn

def offered : List Turn → Script := List.filterMap fun
  | .offer op => some op
  | .poll => none

/-- What is offered before the first poll. -/
def early (turns : List Turn) : Script := offered (turns.takeWhile (· ≠ .poll))

/-- What is offered after it. -/
def late (turns : List Turn) : Script := offered (turns.dropWhile (· ≠ .poll))

@[simp] theorem early_nil : early [] = [] := rfl

@[simp] theorem early_offer (op : Op) (turns : List Turn) :
    early (.offer op :: turns) = op :: early turns := rfl

@[simp] theorem early_poll (turns : List Turn) : early (.poll :: turns) = [] := rfl

@[simp] theorem late_offer (op : Op) (turns : List Turn) :
    late (.offer op :: turns) = late turns := rfl

@[simp] theorem late_poll (turns : List Turn) : late (.poll :: turns) = offered turns := rfl

end Turn

/-- Turns one after another up to the first one that fails, with the ops polled. -/
def turns : List Turn → Queue → Except Fault Script × Queue
  | [], queue => (.ok [], queue)
  | .offer op :: later, queue =>
    match queue.offer op with
    | (.error fault, queue) => (.error fault, queue)
    | (.ok (), queue) => turns later queue
  | .poll :: later, queue =>
    match queue.poll with
    | (.error fault, queue) => (.error fault, queue)
    | (.ok op?, queue) =>
      let (out, queue) := turns later queue
      (out.map (op?.toList ++ ·), queue)

theorem turns_offer {queue after : Queue} {op : Op} (h : queue.offer op = (.ok (), after))
    (later : List Turn) : turns (.offer op :: later) queue = turns later after := by
  simp only [turns, h]

theorem turns_poll {queue after last : Queue} {op? : Option Op} {later : List Turn} {out : Script}
    (h : queue.poll = (.ok op?, after)) (hlater : turns later after = (.ok out, last)) :
    turns (.poll :: later) queue = (.ok (op?.toList ++ out), last) := by
  simp only [turns, h, hlater]
  rfl

theorem turns_poll_failed {queue after : Queue} {fault : Fault}
    (h : queue.poll = (.error fault, after)) (later : List Turn) :
    turns (.poll :: later) queue = (.error fault, after) := by
  simp only [turns, h]

/-- Rewriting layers on a queue that ops are offered to, and that holds some already. -/
def rewriting (rewriters : List Rewriter) (held : Script) : Queue :=
  rewriters.foldl (fun queue rewriter => queue.under rewriter.work)
    (.ofSource ⟨⟨[], held⟩, .offered⟩)

theorem offer_under_rewriter (queue : Queue) (rewriter : Rewriter) (op : Op) :
    (queue.under rewriter.work).offer op =
      ((queue.offer op).1, (queue.offer op).2.under rewriter.work) := by
  cases rewriter <;> rfl

theorem poll_under_rewriter (queue : Queue) (rewriter : Rewriter) :
    (queue.under rewriter.work).poll =
      (rewriter.answered queue.poll.1, queue.poll.2.under rewriter.work) := by
  have hpoll := Layer.poll_rewriter (Stack.feed Source.base queue.depth) rewriter queue.stack
  change ((Layer.poll _ (.new rewriter.work, queue.stack)).1,
    (⟨queue.depth + 1, (Layer.poll _ (.new rewriter.work, queue.stack)).2⟩ : Queue)) = _
  rw [hpoll]
  rfl

private theorem offer_foldl (rewriters : List Rewriter) (queue : Queue) (op : Op) :
    (rewriters.foldl (fun queue rewriter => queue.under rewriter.work) queue).offer op =
      ((queue.offer op).1,
        rewriters.foldl (fun queue rewriter => queue.under rewriter.work) (queue.offer op).2) := by
  induction rewriters generalizing queue with
  | nil => rfl
  | cons rewriter rewriters ih => rw [List.foldl_cons, ih, offer_under_rewriter, List.foldl_cons]

private theorem poll_foldl (rewriters : List Rewriter) (queue : Queue) :
    (rewriters.foldl (fun queue rewriter => queue.under rewriter.work) queue).poll =
      (rewriters.foldl (fun answer rewriter => rewriter.answered answer) queue.poll.1,
        rewriters.foldl (fun queue rewriter => queue.under rewriter.work) queue.poll.2) := by
  induction rewriters generalizing queue with
  | nil => rfl
  | cons rewriter rewriters ih =>
    rw [List.foldl_cons, ih, poll_under_rewriter, List.foldl_cons, List.foldl_cons]

theorem offer_rewriting (rewriters : List Rewriter) (held : Script) (op : Op) :
    (rewriting rewriters held).offer op = (.ok (), rewriting rewriters (held ++ [op])) :=
  offer_foldl rewriters _ op

theorem poll_rewriting_cons (rewriters : List Rewriter) (op : Op) (held : Script) :
    (rewriting rewriters (op :: held)).poll =
      ((Rewriter.rewriteAll rewriters op).map some, rewriting rewriters held) := by
  rw [← Rewriter.foldl_answered]
  exact poll_foldl rewriters _

theorem poll_rewriting_nil (rewriters : List Rewriter) :
    (rewriting rewriters []).poll = (.ok none, rewriting rewriters []) := by
  have hnone := Rewriter.foldl_answered_of_ne rewriters (.ok none) nofun
  exact (poll_foldl rewriters _).trans (congrArg (·, rewriting rewriters []) hnone)

theorem runs_rewriting (rewriters : List Rewriter) (held : Script) :
    match held.mapM (Rewriter.rewriteAll rewriters) with
    | .ok rewritten => (rewriting rewriters held).Yields rewritten
    | .error fault => ∃ ops, (rewriting rewriters held).Runs ops (some fault) := by
  induction held with
  | nil => exact runs_dry (poll_rewriting_nil rewriters)
  | cons op held ih =>
    have hpoll := poll_rewriting_cons rewriters op held
    rw [List.mapM_cons]
    cases hop : Rewriter.rewriteAll rewriters op with
    | error fault =>
      rw [hop] at hpoll
      exact ⟨[], runs_failed hpoll⟩
    | ok op' =>
      rw [hop] at hpoll
      cases hheld : held.mapM (Rewriter.rewriteAll rewriters) with
      | error fault =>
        rw [hheld] at ih
        obtain ⟨ops, hops⟩ := ih
        exact ⟨op' :: ops, .cons hpoll hops⟩
      | ok rewritten =>
        rw [hheld] at ih
        exact Runs.cons hpoll ih

section Pumped
variable {queue : Queue} {passed coming : Script}

/-- A pump that has been filled, above whatever is left of what filled it. -/
def pumped (queue : Queue) (passed coming : Script) : Queue :=
  queue.under (.pump ⟨passed, coming, true⟩)

theorem poll_pumped_nil : (queue.pumped passed []).poll = (.ok none, queue.pumped passed []) := rfl

theorem poll_pumped_cons (op : Op) :
    (queue.pumped passed (op :: coming)).poll =
      (.ok (some op), queue.pumped (op :: passed) coming) := rfl

theorem offer_pumped (op : Op) :
    (queue.pumped passed coming).offer op = (.ok (), queue.pumped passed (coming ++ [op])) := rfl

theorem yields_pumped (passed coming : Script) : (queue.pumped passed coming).Yields coming := by
  induction coming generalizing passed with
  | nil => exact runs_dry poll_pumped_nil
  | cons op coming ih => exact .cons (poll_pumped_cons op) (ih (op :: passed))

/-- A pump that has been filled hands out what it holds and what it is offered, as it is. -/
theorem turns_pumped (later : List Turn) (passed coming : Script) :
    ∃ out passed' coming', turns later (queue.pumped passed coming) =
        (.ok out, queue.pumped passed' coming') ∧
      out ++ coming' = coming ++ Turn.offered later := by
  induction later generalizing passed coming with
  | nil => exact ⟨[], passed, coming, rfl, (List.append_nil coming).symm⟩
  | cons turn later ih =>
    cases turn with
    | offer op =>
      obtain ⟨out, passed', coming', hturns, hout⟩ := ih passed (coming ++ [op])
      refine ⟨out, passed', coming', (turns_offer (offer_pumped op) later).trans hturns, ?_⟩
      rw [hout, List.append_assoc]
      rfl
    | poll =>
      cases coming with
      | nil =>
        obtain ⟨out, passed', coming', hturns, hout⟩ := ih passed []
        exact ⟨out, passed', coming', turns_poll poll_pumped_nil hturns, hout⟩
      | cons op coming =>
        obtain ⟨out, passed', coming', hturns, hout⟩ := ih (op :: passed) coming
        exact ⟨op :: out, passed', coming', turns_poll (poll_pumped_cons op) hturns,
          congrArg (op :: ·) hout⟩

/-- The first poll of a pump fills it with all there is below. -/
theorem poll_under_pump {ops : Script} (h : queue.Yields ops) :
    ∃ last : Queue, (queue.under (.pump .new)).poll = (last.pumped [] ops).poll := by
  obtain ⟨stack, hdrain⟩ := Feed.Runs.drain h
  have hfill : Pump.new.fill (Stack.feed Source.base queue.depth) queue.stack =
      (.ok (), ⟨[], ops, true⟩, stack) := by
    simp [Pump.fill, Pump.new, hdrain, Feed.answer]
  have hpoll := Layer.poll_pump_filled hfill
  refine ⟨⟨queue.depth, stack⟩, ?_⟩
  simp only [Queue.poll, under, pumped, Stack.feed, Layer.feed, hpoll]

theorem poll_under_pump_failed {ops : Script} {fault : Fault} (h : queue.Runs ops (some fault)) :
    ∃ after, (queue.under (.pump .new)).poll = (.error fault, after) := by
  obtain ⟨stack, hdrain⟩ := Feed.Runs.drain h
  have hfill : Pump.new.fill (Stack.feed Source.base queue.depth) queue.stack =
      (.error fault, ⟨[], ops, false⟩, stack) := by
    simp [Pump.fill, Pump.new, hdrain, Feed.answer]
  have hpoll := Layer.poll_pump_failed hfill
  refine ⟨⟨queue.depth + 1, (.new (.pump ⟨[], ops, false⟩), stack)⟩, ?_⟩
  simp only [Queue.poll, under, Stack.feed, Layer.feed, hpoll]

theorem yields_under_pump {ops : Script} (h : queue.Yields ops) :
    (queue.under (.pump .new)).Yields ops := by
  obtain ⟨last, hpoll⟩ := poll_under_pump h
  cases ops with
  | nil => exact runs_dry hpoll
  | cons op ops => exact .cons hpoll (yields_pumped [op] ops)

end Pumped

theorem offer_under_pump (rewriters : List Rewriter) (held : Script) (op : Op) :
    ((rewriting rewriters held).under (.pump .new)).offer op =
      (.ok (), (rewriting rewriters (held ++ [op])).under (.pump .new)) := by
  have hoffer := offer_rewriting rewriters held op
  change (((rewriting rewriters held).offer op).1,
    ((rewriting rewriters held).offer op).2.under (.pump .new)) = _
  rw [hoffer]

private theorem turns_pump_ok {rewriters : List Rewriter} {held rewritten : Script}
    {turns : List Turn}
    (h : (held ++ Turn.early turns).mapM (Rewriter.rewriteAll rewriters) = .ok rewritten) :
    ∃ out after rest last,
      Queue.turns turns ((rewriting rewriters held).under (.pump .new)) = (.ok out, after) ∧
      after.drain = (.ok (), rest, last) ∧ out ++ rest = rewritten ++ Turn.late turns := by
  induction turns generalizing held with
  | nil =>
    have key := runs_rewriting rewriters held
    rw [Turn.early_nil, List.append_nil] at h
    rw [h] at key
    obtain ⟨last, hdrain⟩ := Runs.drain (yields_under_pump key)
    exact ⟨[], _, rewritten, last, rfl, hdrain, (List.append_nil rewritten).symm⟩
  | cons turn later ih =>
    cases turn with
    | offer op =>
      rw [turns_offer (offer_under_pump rewriters held op)]
      exact ih (by simpa using h)
    | poll =>
      have key := runs_rewriting rewriters held
      rw [Turn.early_poll, List.append_nil] at h
      rw [h] at key
      obtain ⟨filled, hpoll⟩ := poll_under_pump key
      -- From here on the turns are those of a pump that is filled.
      obtain ⟨out, passed, coming, hturns, hout⟩ :=
        filled.turns_pumped (.poll :: later) [] rewritten
      obtain ⟨last, hdrain⟩ := (filled.yields_pumped passed coming).drain
      refine ⟨out, _, coming, last, ?_, hdrain, hout⟩
      rw [← hturns, Queue.turns, Queue.turns, hpoll]

private theorem turns_pump_failed {rewriters : List Rewriter} {held : Script} {turns : List Turn}
    {fault : Fault}
    (h : (held ++ Turn.early turns).mapM (Rewriter.rewriteAll rewriters) = .error fault) :
    ∃ answer after rest last,
      Queue.turns turns ((rewriting rewriters held).under (.pump .new)) = (answer, after) ∧
      (answer = .error fault ∨ answer = .ok [] ∧ after.drain = (.error fault, rest, last)) := by
  induction turns generalizing held with
  | nil =>
    have key := runs_rewriting rewriters held
    rw [Turn.early_nil, List.append_nil] at h
    rw [h] at key
    obtain ⟨ops, hops⟩ := key
    obtain ⟨after, hpoll⟩ := poll_under_pump_failed hops
    obtain ⟨last, hdrain⟩ := Runs.drain (runs_failed hpoll)
    exact ⟨.ok [], _, [], last, rfl, .inr ⟨rfl, hdrain⟩⟩
  | cons turn later ih =>
    cases turn with
    | offer op =>
      rw [turns_offer (offer_under_pump rewriters held op)]
      exact ih (by simpa using h)
    | poll =>
      have key := runs_rewriting rewriters held
      rw [Turn.early_poll, List.append_nil] at h
      rw [h] at key
      obtain ⟨ops, hops⟩ := key
      obtain ⟨after, hpoll⟩ := poll_under_pump_failed hops
      exact ⟨.error fault, after, [], after, turns_poll_failed hpoll later, .inl rfl⟩

private theorem eq_map_of_mapM {rule : Op → Except Fault Op} (change : Op → Op)
    (hrule : ∀ op op', rule op = .ok op' → op' = change op) {ops rewritten : Script}
    (h : ops.mapM rule = .ok rewritten) : rewritten = ops.map change := by
  induction ops generalizing rewritten with
  | nil =>
    cases h
    rfl
  | cons op ops ih =>
    rw [List.mapM_cons] at h
    cases hop : rule op with
    | error fault =>
      rw [hop] at h
      cases h
    | ok op' =>
      rw [hop] at h
      cases hops : ops.mapM rule with
      | error fault =>
        rw [hops] at h
        cases h
      | ok rest =>
        rw [hops] at h
        cases h
        rw [List.map_cons, hrule op op' hop, ih hops]

/-- However ops are offered to a pump above rewriting layers and polled from it by turns, and
drained at last, they come out in order: those held already and those offered before the first poll
as the layers rewrite them, and those offered after it as they are. Only if one of the former cannot
be rewritten does anything fail: the first poll, which else fills the pump. So a layer that takes
back turns round what is offered early and nothing else, and one that makes forget leaves no bytes
to a delete that is offered early. -/
theorem turns_pump (rewriters : List Rewriter) (held : Script) (turns : List Turn) :
    match (held ++ Turn.early turns).mapM (Rewriter.rewriteAll rewriters) with
    | .ok rewritten =>
      (∃ out after rest last,
        Queue.turns turns ((rewriting rewriters held).under (.pump .new)) = (.ok out, after) ∧
        after.drain = (.ok (), rest, last) ∧ out ++ rest = rewritten ++ Turn.late turns) ∧
      (rewriters = [.undo] → rewritten = (held ++ Turn.early turns).map Op.swapped) ∧
      (rewriters = [.forget] → ∀ op ∈ rewritten, op.Forgotten)
    | .error fault => ∃ answer after rest last,
      Queue.turns turns ((rewriting rewriters held).under (.pump .new)) = (answer, after) ∧
      (answer = .error fault ∨ answer = .ok [] ∧ after.drain = (.error fault, rest, last)) := by
  cases h : (held ++ Turn.early turns).mapM (Rewriter.rewriteAll rewriters) with
  | error fault => exact turns_pump_failed h
  | ok rewritten =>
    refine ⟨turns_pump_ok h, ?_, ?_⟩
    · rintro rfl
      refine eq_map_of_mapM Op.swapped (fun op op' hop => ?_) h
      cases op <;> cases hop <;> rfl
    · rintro rfl
      rw [eq_map_of_mapM Op.forget (fun op op' hop => by cases hop; rfl) h]
      exact List.forall_mem_map.2 fun op _ => op.forgotten_forget

/-- An insert offered before the first poll is turned round, and one offered after it is not. -/
theorem turns_pump_diverted :
    ∃ out after rest last,
      Queue.turns [.offer (.insert [1]), .poll, .offer (.insert [2])]
        (((ofSource .offering).under .undo).under (.pump .new)) = (.ok out, after) ∧
      after.drain = (.ok (), rest, last) ∧
      [Op.insert [1], .insert [2]].mapM (Rewriter.rewriteAll [.undo]) ≠ .ok (out ++ rest) := by
  have hearly : ([] ++ Turn.early [.offer (.insert [1]), .poll, .offer (.insert [2])]).mapM
      (Rewriter.rewriteAll [.undo]) = .ok [.delete [1]] := rfl
  obtain ⟨out, after, rest, last, hturns, hdrain, hout⟩ := turns_pump_ok hearly
  refine ⟨out, after, rest, last, hturns, hdrain, ?_⟩
  have hundone : [Op.insert [1], .insert [2]].mapM (Rewriter.rewriteAll [.undo]) =
      .ok [.delete [1], .delete [2]] := rfl
  rw [hout, hundone]
  nofun

end Queue

end BytePatch
