import BytePatch.Proofs.Queue.Delivery
import BytePatch.Proofs.Queue.Polls

/-! Feeds known by what all their polls answer, failures included: those that in the end answer the
same for ever, and those that give the ops of a list and fail for good. -/
namespace BytePatch

namespace Feed
variable {σ : Type} {feed : Feed σ} {s s' : σ} {ops : List Op} {answers : List Answer}

/-- The polls from now on answer the answers of a list one by one, and then the same every time. -/
def Answers (feed : Feed σ) (s : σ) (answers : List Answer) (last : Answer) : Prop :=
  ∀ count, (feed.poll (feed.after count s)).1 = answers.getD count last

/-- The polls from now on give the ops of a list one by one, and then they all fail, each for a
reason of its own. -/
def Fails (feed : Feed σ) (s : σ) (ops : List Op) : Prop :=
  ∀ count, match ops[count]? with
    | some op => (feed.poll (feed.after count s)).1 = .ok (some op)
    | none => ∃ fault, (feed.poll (feed.after count s)).1 = .error fault

/-- What is true of a feed and the answers still to come, if it stays true, makes it answer so. -/
theorem answers_of_invariant (Inv : σ → List Answer → Prop) {last : Answer}
    (h : ∀ s answers, Inv s answers →
      (feed.poll s).1 = answers.headD last ∧ Inv (feed.poll s).2 answers.tail)
    (hs : Inv s answers) : feed.Answers s answers last := by
  intro count
  induction count generalizing s answers with
  | zero =>
    rw [after, (h s answers hs).1]
    cases answers <;> rfl
  | succ count ih =>
    rw [after, ih (h s answers hs).2]
    cases answers <;> rfl

theorem Answers.poll {last : Answer} (h : feed.Answers s answers last) :
    (feed.poll s).1 = answers.headD last ∧ feed.Answers (feed.poll s).2 answers.tail last := by
  constructor
  · have := h 0
    rw [after] at this
    rw [this]
    cases answers <;> rfl
  · intro count
    have := h (count + 1)
    rw [after] at this
    rw [this]
    cases answers <;> rfl

theorem Answers.cons {answer last : Answer} (hp : feed.poll s = (answer, s'))
    (h : feed.Answers s' answers last) : feed.Answers s (answer :: answers) last := by
  intro count
  cases count with
  | zero => rw [after, hp, List.getD_cons_zero]
  | succ count =>
    rw [after, hp, List.getD_cons_succ]
    exact h count

theorem Answers.runs {fault : Fault} (h : feed.Answers s (Answer.each ops) (.error fault)) :
    feed.Runs s ops (some fault) := by
  induction ops generalizing s with
  | nil => exact .failed (Prod.ext h.poll.1 rfl)
  | cons op ops ih => exact .op (Prod.ext h.poll.1 rfl) (ih h.poll.2)

/-- What is true of a consumer and the answers still to come, if each op it takes leaves it true, is
true of what it comes to and the answers it leaves. -/
theorem Answers.consume {α β : Type} (step : α → Op → Next α β) (More : α → List Answer → Prop)
    (Done : β → List Answer → Prop)
    (hstep : ∀ a op answers, More a (.ok (some op) :: answers) →
      (step a op).Holds (fun a' => More a' answers) (fun b => Done b answers))
    (h : feed.Answers s answers (.ok none)) (hends : .ok none ∉ answers) {a : α}
    (ha : More a answers) :
    ∃ rest, feed.Answers (feed.consume step a s).2 rest (.ok none) ∧ .ok none ∉ rest ∧
      match (feed.consume step a s).1 with
      | .done b => Done b rest
      | .dry a' => rest = [] ∧ More a' []
      | .failed fault a' => More a' (.error fault :: rest) := by
  induction answers generalizing a s with
  | nil =>
    obtain ⟨hhead, htail⟩ := h.poll
    rw [consume_dry (Prod.ext hhead rfl)]
    exact ⟨[], htail, hends, rfl, ha⟩
  | cons answer answers ih =>
    obtain ⟨hhead, htail⟩ := h.poll
    have hends' : .ok none ∉ answers := fun hm => hends (List.mem_cons_of_mem _ hm)
    rcases answer with fault | - | op
    · rw [consume_failed (Prod.ext hhead rfl)]
      exact ⟨answers, htail, hends', ha⟩
    · exact absurd List.mem_cons_self hends
    · have hp : feed.poll s = (.ok (some op), (feed.poll s).2) := Prod.ext hhead rfl
      have hn := hstep a op answers ha
      cases hs : step a op with
      | more a' =>
        rw [hs] at hn
        rw [consume_more hp hs]
        exact ih htail hends' hn
      | done b =>
        rw [hs] at hn
        rw [consume_done hp hs]
        exact ⟨answers, htail, hends', hn⟩

theorem answers_answering (answers : List Answer) :
    answering.Answers answers answers (.ok none) := by
  refine answers_of_invariant (fun left answers => left = answers) ?_ rfl
  rintro answers _ rfl
  cases answers <;> exact ⟨rfl, rfl⟩

theorem Fails.poll (h : feed.Fails s ops) : feed.Fails (feed.poll s).2 ops.tail ∧
    match ops.head? with
    | some op => (feed.poll s).1 = .ok (some op)
    | none => ∃ fault, (feed.poll s).1 = .error fault := by
  constructor
  · intro count
    rw [List.getElem?_tail]
    exact h (count + 1)
  · rw [List.head?_eq_getElem?]
    exact h 0

theorem Breaks.fails {fault later : Fault} (h : feed.Breaks s ops fault later) :
    feed.Fails s ops := by
  intro count
  have := h count
  split <;> simp_all

theorem Answers.polls {expected : List Answer} {last : Answer} (h : feed.Answers s expected last)
    (hp : feed.Polls s answers s') {count : Nat} (hc : count < answers.length) :
    answers[count] = expected.getD count last := by
  induction hp generalizing expected count with
  | nil => cases hc
  | @cons s s' s'' answer answers hpoll _ ih =>
    cases count with
    | zero =>
      have := h 0
      rw [after, hpoll] at this
      exact this
    | succ count =>
      have hrest := h.poll.2
      rw [hpoll] at hrest
      rw [List.getElem_cons_succ, ih hrest (Nat.lt_of_succ_lt_succ hc)]
      cases expected <;> rfl

/-- Whoever polls a feed that comes to fail is given the first of its ops, and never finds nothing
more; if a poll has failed there are no ops left. -/
theorem Fails.polls (h : feed.Fails s ops) (hp : feed.Polls s answers s') :
    ∃ rest, ops = given answers ++ rest ∧ feed.Fails s' rest ∧ ¬ Dry answers ∧
      (Clean answers ∨ rest = []) := by
  induction hp generalizing ops with
  | nil => exact ⟨ops, rfl, h, not_dry_nil, .inl clean_nil⟩
  | @cons s s' s'' answer answers hpoll hrest ih =>
    obtain ⟨htail, hhead⟩ := h.poll
    rw [hpoll] at hhead htail
    obtain ⟨rest, hops, hf, hdry, hleft⟩ := ih htail
    have hlast : answer ≠ .ok none → ¬ Dry (answer :: answers) := by
      intro hne hlast
      cases hrest with
      | nil => exact hne (by simpa [Dry] using hlast)
      | cons => exact hdry (by simpa [Dry] using hlast)
    cases ops with
    | nil =>
      obtain ⟨fault, rfl⟩ := hhead
      exact ⟨rest, hops, hf, hlast (by simp), .inr (List.append_eq_nil_iff.1 hops.symm).2⟩
    | cons op ops =>
      obtain rfl : answer = .ok (some op) := hhead
      exact ⟨rest, congrArg (op :: ·) hops, hf, hlast (by simp), hleft.imp_left clean_cons⟩

/-- However often the feed is polled, failures passed over, it gives no more than the first of the
ops. -/
def GivesWithin (feed : Feed σ) (s : σ) (ops : List Op) : Prop :=
  ∀ answers s', feed.Polls s answers s' → given answers <+: ops

theorem Delivers.givesBelow {feed : Feed σ} {s : σ} {ops : List Op} (h : feed.Delivers s ops)
    {bound : Nat} (hlt : Script.totalRun ops < bound) : feed.GivesBelow bound s := by
  intro answers s' hp
  refine Nat.lt_of_le_of_lt ?_ hlt
  clear hlt
  induction hp generalizing ops with
  | nil => exact Nat.zero_le _
  | cons hp _ ih =>
    obtain ⟨hanswer, hrest⟩ := h.poll
    rw [hp] at hanswer hrest
    cases ops with
    | nil =>
      cases hanswer
      exact ih hrest
    | cons op ops =>
      cases hanswer
      exact Nat.add_le_add_left (ih hrest) _

/-- All polls together, failures passed over, give the ops of a list and no others. -/
def Emits (feed : Feed σ) (s : σ) (ops : List Op) : Prop :=
  feed.GivesWithin s ops ∧ ∃ answers s', feed.Polls s answers s' ∧ given answers = ops

/-- If each poll gives the first of the ops still to come or none, no more is ever given. If besides
each poll brings the end of them nearer, they all come. -/
theorem emits_of_invariant {Goes : Prop} (Inv : σ → List Op → Nat → Prop)
    (h : ∀ s ops left, Inv s ops left → ∃ rest left',
      ops = given [(feed.poll s).1] ++ rest ∧ Inv (feed.poll s).2 rest left' ∧
        (Goes → ops = [] ∨ rest.length + left' < ops.length + left))
    {left : Nat} (hs : Inv s ops left) : feed.GivesWithin s ops ∧ (Goes → feed.Emits s ops) := by
  have hwithin : feed.GivesWithin s ops := by
    intro answers s' hp
    induction hp generalizing ops left with
    | nil => exact List.nil_prefix
    | @cons s s' s'' answer answers hpoll _ ih =>
      obtain ⟨rest, left', rfl, hrest, -⟩ := h s ops left hs
      rw [hpoll] at hrest ⊢
      rw [← List.singleton_append, given_append]
      exact List.prefix_append_right_inj _ |>.2 (ih hrest)
  refine ⟨hwithin, fun hgoes => ⟨hwithin, ?_⟩⟩
  clear hwithin
  induction hn : ops.length + left using Nat.strongRecOn generalizing s ops left with
  | _ n ih =>
  by_cases hnil : ops = []
  · exact ⟨[], s, .nil, hnil.symm⟩
  · obtain ⟨rest, left', hops, hrest, hless⟩ := h s ops left hs
    obtain ⟨answers, s', hpolls, hgiven⟩ :=
      ih _ (hn ▸ (hless hgoes).resolve_left hnil) hrest rfl
    refine ⟨_, s', .cons rfl hpolls, ?_⟩
    rw [← List.singleton_append, given_append, hgiven, ← hops]

/-- A poll that fails leaves the feed so that it fails again in the same way and changes nothing. -/
def Sticks (feed : Feed σ) (s : σ) : Prop :=
  ∀ count fault s', feed.poll (feed.after count s) = (.error fault, s') →
    feed.poll s' = (.error fault, s')

theorem after_of_invariant (feed : Feed σ) (Inv : σ → Prop)
    (h : ∀ s, Inv s → Inv (feed.poll s).2) (hs : Inv s) (count : Nat) :
    Inv (feed.after count s) := by
  induction count generalizing s with
  | zero => exact hs
  | succ count ih => exact ih (h s hs)

end Feed

namespace Layer
variable {σ : Type} {below : Feed σ}

/-- What a refill of an empty ready buffer does to the answers that are still to come, which `Rest`
relates to what the layer holds and to what is below it: a failure is the first of them, ready ops
are the first of them too, and if nothing is ready that is the first answer. -/
def Brings (Rest : Work → List Op → σ → List Answer → Prop) (last : Answer)
    (answers : List Answer) : Except Fault Unit × Layer × σ → Prop
  | (.error fault, layer, s) => layer.buffers.ready = [] ∧ answers.headD last = .error fault ∧
    Rest layer.work layer.buffers.pending s answers.tail
  | (.ok (), ⟨⟨[], pending⟩, work⟩, s) => answers.headD last = .ok none ∧
    Rest work pending s answers.tail
  | (.ok (), ⟨⟨op :: ready, pending⟩, work⟩, s) => ∃ later,
    answers = Answer.each (op :: ready) ++ later ∧ Rest work pending s later

theorem brings_ready {Rest : Work → List Op → σ → List Answer → Prop} {last : Answer}
    {ready pending : List Op} {work : Work} {s : σ} {later : List Answer} (hready : ready ≠ [])
    (h : Rest work pending s later) :
    Brings Rest last (Answer.each ready ++ later) (.ok (), ⟨⟨ready, pending⟩, work⟩, s) := by
  cases ready with
  | nil => exact absurd rfl hready
  | cons op ready => exact ⟨later, rfl, h⟩

/-- A layer answers what is to come if each refill brings the first of it. -/
theorem answers_of_brings (Rest : Work → List Op → σ → List Answer → Prop) {last : Answer}
    (hrest : ∀ work pending s answers, Rest work pending s answers →
      Brings Rest last answers (shift below ⟨⟨[], pending⟩, work⟩ s))
    {work : Work} {s : σ} {answers : List Answer} (h : Rest work [] s answers) :
    (feed below).Answers (.new work, s) answers last := by
  refine Feed.answers_of_invariant (fun state answers => ∃ later,
    answers = Answer.each state.1.buffers.ready ++ later ∧
      Rest state.1.work state.1.buffers.pending state.2 later) ?_ ⟨answers, rfl, h⟩
  rintro ⟨⟨⟨ready, pending⟩, work⟩, s⟩ _ ⟨later, rfl, hlater⟩
  cases ready with
  | cons op ready => exact ⟨rfl, later, rfl, hlater⟩
  | nil =>
    have hbrings := hrest work pending s later hlater
    change (poll below _).1 = later.headD last ∧ _
    simp only [feed, poll]
    generalize shift below ⟨⟨[], pending⟩, work⟩ s = result at hbrings
    obtain ⟨fault | _, ⟨⟨ready, pending'⟩, work'⟩, s'⟩ := result
    · obtain ⟨hready, hhead, htail⟩ := hbrings
      obtain rfl : ready = [] := hready
      exact ⟨hhead.symm, later.tail, rfl, htail⟩
    · cases ready with
      | nil =>
        obtain ⟨hhead, htail⟩ := hbrings
        exact ⟨hhead.symm, later.tail, rfl, htail⟩
      | cons op ready =>
        obtain ⟨later', rfl, hlater'⟩ := hbrings
        exact ⟨rfl, later', rfl, hlater'⟩

/-- What a refill of an empty ready buffer does to the ops still to come, which `Rest` relates to
what the layer holds and to what is below it, with how many refills may still bring some: a failure
changes nothing, and if the layer is one that goes on it fails only when nothing is to come. -/
def Passes (Rest : Work → List Op → σ → List Op → Nat → Prop) (Goes : Prop) (ops : List Op)
    (left : Nat) : Except Fault Unit × Layer × σ → Prop
  | (.error _, layer, s) => layer.buffers.ready = [] ∧ (Goes → ops = []) ∧
    ∃ left' ≤ left, Rest layer.work layer.buffers.pending s ops left'
  | (.ok (), layer, s) => ∃ rest left', ops = layer.buffers.ready ++ rest ∧
    Rest layer.work layer.buffers.pending s rest left' ∧ left' < left

theorem Passes.mono {Rest : Work → List Op → σ → List Op → Nat → Prop} {Goes : Prop}
    {ops : List Op} {left left' : Nat} {result : Except Fault Unit × Layer × σ}
    (h : Passes Rest Goes ops left result) (hle : left ≤ left') :
    Passes Rest Goes ops left' result := by
  obtain ⟨_ | _, layer, s⟩ := result
  · obtain ⟨hready, hgoes, left'', hle', hrest⟩ := h
    exact ⟨hready, hgoes, left'', Nat.le_trans hle' hle, hrest⟩
  · obtain ⟨rest, left'', hops, hrest, hlt⟩ := h
    exact ⟨rest, left'', hops, hrest, Nat.lt_of_lt_of_le hlt hle⟩

/-- A layer gives what is to come, failures passed over, if each refill does. -/
theorem emits_of_passes (Rest : Work → List Op → σ → List Op → Nat → Prop) {Goes : Prop}
    (hrest : ∀ work pending s ops left, Rest work pending s ops left →
      Passes Rest Goes ops left (shift below ⟨⟨[], pending⟩, work⟩ s))
    {work : Work} {s : σ} {ops : List Op} {left : Nat} (h : Rest work [] s ops left) :
    (feed below).GivesWithin (.new work, s) ops ∧
      (Goes → (feed below).Emits (.new work, s) ops) := by
  refine Feed.emits_of_invariant (fun state ops left => ∃ later,
    ops = state.1.buffers.ready ++ later ∧
      Rest state.1.work state.1.buffers.pending state.2 later left) ?_ ⟨ops, rfl, h⟩
  rintro ⟨⟨⟨ready, pending⟩, work⟩, s⟩ _ left ⟨later, rfl, hlater⟩
  cases ready with
  | cons op ready =>
    exact ⟨ready ++ later, left, rfl, ⟨later, rfl, hlater⟩,
      fun _ => .inr (Nat.add_lt_add_right (Nat.lt_succ_self _) left)⟩
  | nil =>
    have hpasses := hrest work pending s later left hlater
    change ∃ rest left', later = Feed.given [(poll below _).1] ++ rest ∧ _
    simp only [feed, poll]
    generalize shift below ⟨⟨[], pending⟩, work⟩ s = result at hpasses
    obtain ⟨fault | _, ⟨⟨ready, pending'⟩, work'⟩, s'⟩ := result
    · obtain ⟨hready, hgoes, left', -, hsame⟩ := hpasses
      obtain rfl : ready = [] := hready
      exact ⟨later, left', rfl, ⟨later, rfl, hsame⟩, fun hg => .inl (hgoes hg)⟩
    · obtain ⟨rest, left', rfl, hafter, hless⟩ := hpasses
      cases ready with
      | nil =>
        exact ⟨rest, left', rfl, ⟨rest, rfl, hafter⟩,
          fun _ => .inr (Nat.add_lt_add_left hless _)⟩
      | cons op ready =>
        exact ⟨ready ++ rest, left', rfl, ⟨rest, rfl, hafter⟩,
          fun _ => .inr (Nat.add_lt_add (Nat.lt_succ_self _) hless)⟩

end Layer

namespace Queue

/-- The polls of the queue from now on answer the answers of a list one by one, and then the same
every time. -/
def Answers (queue : Queue) (answers : List Answer) (last : Answer) : Prop :=
  (Stack.feed Source.base queue.depth).Answers queue.stack answers last

/-- The polls of the queue from now on give the ops of a list one by one, and then they all fail. -/
def Fails (queue : Queue) (ops : List Op) : Prop :=
  (Stack.feed Source.base queue.depth).Fails queue.stack ops

/-- However often the queue is polled, failures passed over, it gives no more than the first of the
ops. -/
def GivesWithin (queue : Queue) (ops : List Op) : Prop :=
  (Stack.feed Source.base queue.depth).GivesWithin queue.stack ops

/-- All polls of the queue together, failures passed over, give the ops of a list and no others. -/
def Emits (queue : Queue) (ops : List Op) : Prop :=
  (Stack.feed Source.base queue.depth).Emits queue.stack ops

theorem Answers.drain {queue : Queue} {ops : List Op} {fault : Fault}
    (h : queue.Answers (Answer.each ops) (.error fault)) :
    ∃ after, queue.drain = (.error fault, ops, after) :=
  have hruns : queue.Runs ops (some fault) := Feed.Answers.runs h
  hruns.drain

/-- A poll of the queue that fails leaves it so that it fails again and again in the same way. -/
def Sticks (queue : Queue) : Prop := (Stack.feed Source.base queue.depth).Sticks queue.stack

end Queue

end BytePatch
