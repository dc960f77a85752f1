import BytePatch.Proofs.Queue.Carries

/-! Feeds that never fail: poll after poll they give the ops of a list, and nothing ever after. What
a consumer does with such a feed is what it does with the list. -/
namespace BytePatch

namespace Feed
variable {σ α β : Type} {feed : Feed σ}

/-- The state after so many polls. -/
def after (feed : Feed σ) : Nat → σ → σ
  | 0, s => s
  | count + 1, s => feed.after count (feed.poll s).2

/-- The polls from now on give the ops of a list one by one and then nothing, however many there
are. -/
def Delivers (feed : Feed σ) (s : σ) (ops : List Op) : Prop :=
  ∀ count, (feed.poll (feed.after count s)).1 = .ok ops[count]?

theorem Delivers.poll {s : σ} {ops : List Op} (h : feed.Delivers s ops) :
    (feed.poll s).1 = .ok ops.head? ∧ feed.Delivers (feed.poll s).2 ops.tail := by
  constructor
  · rw [List.head?_eq_getElem?]
    exact h 0
  · intro count
    have := h (count + 1)
    rwa [after, ← List.getElem?_tail] at this

theorem Delivers.cons {s s' : σ} {op : Op} {ops : List Op} (hp : feed.poll s = (.ok (some op), s'))
    (h : feed.Delivers s' ops) : feed.Delivers s (op :: ops) := by
  intro count
  cases count with
  | zero => rw [after, hp, List.getElem?_cons_zero]
  | succ count =>
    rw [after, hp, List.getElem?_cons_succ]
    exact h count

/-- What is true of a feed and the ops still to come, if it stays true, makes it deliver them. -/
theorem delivers_of_invariant (Inv : σ → List Op → Prop)
    (h : ∀ s ops, Inv s ops → (feed.poll s).1 = .ok ops.head? ∧ Inv (feed.poll s).2 ops.tail)
    {s : σ} {ops : List Op} (hs : Inv s ops) : feed.Delivers s ops := by
  intro count
  induction count generalizing s ops with
  | zero =>
    rw [← List.head?_eq_getElem?]
    exact (h s ops hs).1
  | succ count ih =>
    have := ih (h s ops hs).2
    rwa [List.getElem?_tail] at this

theorem Delivers.yields {s : σ} {ops : List Op} (h : feed.Delivers s ops) : feed.Yields s ops := by
  induction ops generalizing s with
  | nil => exact .dry (Prod.ext h.poll.1 rfl)
  | cons op ops ih => exact .op (Prod.ext h.poll.1 rfl) (ih h.poll.2)

theorem after_of_fixed {s : σ} (h : (feed.poll s).2 = s) (count : Nat) : feed.after count s = s := by
  induction count with
  | zero => rfl
  | succ count ih => rw [after, h, ih]

theorem delivers_nil {s s' : σ} (hp : feed.poll s = (.ok none, s'))
    (hdry : feed.poll s' = (.ok none, s')) : feed.Delivers s [] := by
  intro count
  cases count with
  | zero => rw [after, hp, List.getElem?_nil]
  | succ count => rw [after, hp, after_of_fixed (by rw [hdry]), hdry, List.getElem?_nil]

/-- The polls from now on give the ops of a list one by one. The one after them fails, and all that
follow fail too, for a reason of their own. -/
def Breaks (feed : Feed σ) (s : σ) (ops : List Op) (fault later : Fault) : Prop :=
  ∀ count, (feed.poll (feed.after count s)).1 =
    match ops[count]? with
    | some op => .ok (some op)
    | none => .error (if count = ops.length then fault else later)

section Breaks
variable {s s' : σ} {ops : List Op} {fault later : Fault}

theorem breaks_nil (hp : feed.poll s = (.error fault, s'))
    (hfailed : feed.poll s' = (.error later, s')) : feed.Breaks s [] fault later := by
  intro count
  cases count with
  | zero => rw [after, hp]; rfl
  | succ count => rw [after, hp, after_of_fixed (by rw [hfailed]), hfailed]; rfl

theorem Breaks.cons {op : Op} (hp : feed.poll s = (.ok (some op), s'))
    (h : feed.Breaks s' ops fault later) : feed.Breaks s (op :: ops) fault later := by
  intro count
  cases count with
  | zero => rw [after, hp]; rfl
  | succ count =>
    rw [after, hp, h count, List.getElem?_cons_succ, List.length_cons]
    simp only [Nat.succ_inj]

theorem Breaks.runs (h : feed.Breaks s ops fault later) : feed.Runs s ops (some fault) := by
  induction ops generalizing s with
  | nil => exact .failed (Prod.ext (h 0) rfl)
  | cons op ops ih =>
    refine .op (Prod.ext (h 0) rfl) (ih fun count => ?_)
    have := h (count + 1)
    rw [List.getElem?_cons_succ, List.length_cons] at this
    simpa only [after, Nat.succ_inj] using this

end Breaks

theorem Delivers.held_eq {s : σ} {ops : List Op} (h : feed.Delivers s ops) : feed.held s = ops := by
  obtain ⟨last, hd⟩ := h.yields.drain
  rw [held, hd]

/-- What is true of a consumer and the ops still to come, if each op it takes leaves it true, is
true of its result and the ops it leaves. -/
theorem Delivers.consume (step : α → Op → Next α β) (More : α → List Op → Prop)
    (Done : β → List Op → Prop)
    (hstep : ∀ a op ops, More a (op :: ops) →
      (step a op).Holds (fun a' => More a' ops) (fun b => Done b ops))
    {s : σ} {ops : List Op} (h : feed.Delivers s ops) {a : α} (ha : More a ops) :
    ∃ rest, feed.Delivers (feed.consume step a s).2 rest ∧
      (feed.consume step a s).1.Holds (fun b => Done b rest)
        (fun a' => rest = [] ∧ More a' []) (fun _ => False) := by
  induction ops generalizing a s with
  | nil =>
    rw [consume_dry (Prod.ext h.poll.1 rfl)]
    exact ⟨[], h.poll.2, rfl, ha⟩
  | cons op ops ih =>
    have hp : feed.poll s = (.ok (some op), (feed.poll s).2) := Prod.ext h.poll.1 rfl
    have hn := hstep a op ops ha
    cases hs : step a op with
    | more a' =>
      rw [consume_more hp hs]
      rw [hs] at hn
      exact ih h.poll.2 hn
    | done b =>
      rw [consume_done hp hs]
      rw [hs] at hn
      exact ⟨ops, h.poll.2, hn⟩

theorem Delivers.require {s : σ} {ops : List Op} (h : feed.Delivers s ops) (count : Nat)
    (pending : List Op) :
    ∃ enough pending' s' rest, feed.require count pending s = (.ok enough, pending', s') ∧
      feed.Delivers s' rest ∧ pending ++ ops = pending' ++ rest ∧
      if enough then count ≤ pending'.length else pending'.length < count ∧ rest = [] := by
  unfold Feed.require
  by_cases hc : count ≤ pending.length
  · rw [if_pos hc]
    exact ⟨true, pending, s, ops, rfl, h, rfl, hc⟩
  rw [if_neg hc]
  obtain ⟨rest, hrest, houtcome⟩ := h.consume (Feed.require.gather count)
    (fun kept ops' => kept ++ ops' = pending ++ ops ∧ kept.length < count)
    (fun kept ops' => kept ++ ops' = pending ++ ops ∧ count ≤ kept.length)
    (fun kept op ops' hk => by
      have happend : kept ++ [op] ++ ops' = pending ++ ops := by simpa using hk.1
      unfold Feed.require.gather
      by_cases hl : count ≤ (kept ++ [op]).length
      · simp only [if_pos hl]
        exact ⟨happend, hl⟩
      · simp only [if_neg hl]
        exact ⟨happend, Nat.lt_of_not_le hl⟩)
    ⟨rfl, Nat.lt_of_not_le hc⟩
  generalize feed.consume (Feed.require.gather count) pending s = result at hrest houtcome
  obtain ⟨outcome, s'⟩ := result
  cases outcome with
  | done kept => exact ⟨true, kept, s', rest, rfl, hrest, houtcome.1.symm, houtcome.2⟩
  | dry kept =>
    obtain ⟨rfl, hkept, hshort⟩ := houtcome
    exact ⟨false, kept, s', [], rfl, hrest, hkept.symm, hshort, rfl⟩
  | failed fault kept => exact houtcome.elim

theorem Delivers.require_two {s : σ} {ops : List Op} (h : feed.Delivers s ops)
    (pending : List Op) :
    (∃ a b pending' s' rest, feed.require 2 pending s = (.ok true, a :: b :: pending', s') ∧
      feed.Delivers s' rest ∧ pending ++ ops = a :: b :: (pending' ++ rest)) ∨
    ∃ pending' s', feed.require 2 pending s = (.ok false, pending', s') ∧
      feed.Delivers s' [] ∧ pending ++ ops = pending' ∧ pending'.length < 2 := by
  obtain ⟨enough, pending', s', rest, hreq, hrest, heq, henough⟩ := h.require 2 pending
  cases enough with
  | true =>
    have htwo : 2 ≤ pending'.length := henough
    rcases pending' with _ | ⟨a, _ | ⟨b, more⟩⟩
    · exact absurd htwo (by decide)
    · exact absurd htwo (Nat.not_succ_le_self 1)
    · exact .inl ⟨a, b, more, s', rest, hreq, hrest, heq⟩
  | false =>
    obtain ⟨hshort, rfl⟩ := henough
    rw [List.append_nil] at heq
    exact .inr ⟨pending', s', hreq, hrest, heq, hshort⟩

/-- A feed that is on the books as it is, and never fails, delivers what it holds. -/
theorem Ledger.delivers (L : feed.Ledger .equality fun _ => False) {s : σ} (hs : L.Sound s) :
    feed.Delivers s (L.content s) := by
  refine delivers_of_invariant (fun s ops => L.Sound s ∧ L.content s = ops) ?_ ⟨hs, rfl⟩
  rintro s ops ⟨hs, rfl⟩
  cases hp : feed.poll s with
  | mk answer s' =>
    rcases answer with fault | (- | op)
    · exact (L.failed hs hp).elim
    · obtain ⟨hs', hc, hr⟩ := L.dry hs hp
      have hr : L.content s = [] := hr
      simp [hs', hc, hr]
    · obtain ⟨hs', hr⟩ := L.op hs hp
      have hr : L.content s = op :: L.content s' := hr
      simp [hs', hr]

/-- The books of a feed that never fails: it holds what it is going to deliver. -/
private def delivering (feed : Feed σ) : feed.Ledger .equality fun _ => False where
  Sound s := feed.Delivers s (feed.held s)
  content := feed.held
  fit _ := trivial
  op {s s' op} h hp := by
    obtain ⟨hfirst, hrest⟩ := h.poll
    rw [hp] at hfirst hrest
    have hheld : feed.held s' = (feed.held s).tail := hrest.held_eq
    obtain ⟨rest, hops⟩ := List.head?_eq_some_iff.1 (Except.ok.inj hfirst).symm
    refine ⟨hheld ▸ hrest, ?_⟩
    change feed.held s = op :: feed.held s'
    rw [hheld, hops, List.tail_cons]
  dry {s s'} h hp := by
    obtain ⟨hfirst, hrest⟩ := h.poll
    rw [hp] at hfirst hrest
    have hheld : feed.held s' = (feed.held s).tail := hrest.held_eq
    have hnil : feed.held s = [] := List.head?_eq_none_iff.1 (Except.ok.inj hfirst).symm
    exact ⟨hheld ▸ hrest, by rw [hheld, hnil, List.tail_nil], hnil⟩
  failed {s s' fault} h hp := by
    have hfirst := h.poll.1
    rw [hp] at hfirst
    cases hfirst

end Feed

namespace Queue

/-- The polls of the queue from now on give the ops of a list one by one and then nothing. -/
def Delivers (queue : Queue) (ops : List Op) : Prop :=
  (Stack.feed Source.base queue.depth).Delivers queue.stack ops

/-- The polls of the queue from now on give the ops of a list one by one and then fail for good. -/
def Breaks (queue : Queue) (ops : List Op) (fault later : Fault) : Prop :=
  (Stack.feed Source.base queue.depth).Breaks queue.stack ops fault later

theorem Carries.delivers {queue : Queue} {ops : Script}
    (h : queue.Carries .equality (fun _ => False) ops) : queue.Delivers ops := by
  obtain ⟨L, hs, rfl⟩ := h
  exact L.delivers hs

theorem Delivers.carries {queue : Queue} {ops : Script} (h : queue.Delivers ops) :
    queue.Carries .equality (fun _ => False) ops := by
  have hheld := Feed.Delivers.held_eq h
  subst hheld
  exact ⟨Feed.delivering _, h, rfl⟩

theorem delivers_list (ops : List Op) : (ofSource (.ofList ops)).Delivers ops :=
  (carries_list ops).delivers

theorem Delivers.drain {queue : Queue} {ops : List Op} (h : queue.Delivers ops) :
    ∃ after, queue.drain = (.ok (), ops, after) :=
  have hyields : queue.Yields ops := Feed.Delivers.yields h
  hyields.drain

theorem Breaks.drain {queue : Queue} {ops : List Op} {fault later : Fault}
    (h : queue.Breaks ops fault later) : ∃ after, queue.drain = (.error fault, ops, after) :=
  have hruns : queue.Runs ops (some fault) := Feed.Breaks.runs h
  hruns.drain

end Queue

end BytePatch
