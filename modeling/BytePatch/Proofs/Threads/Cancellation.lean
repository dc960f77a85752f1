import BytePatch.Proofs.Threads.Calling

/-! What is called on a pool after it was cancelled between two calls. The ops that are ready are
still handed out; whatever would need a refill is refused from then on, and no call finds the pool at
its end. -/
namespace BytePatch

/-- What a pool that was cancelled with these ops ready answers to its polls, numbered from then on. -/
def lastAnswer (ready : List Op) (number : Nat) : Answer :=
  match ready[number]? with
  | some op => .ok (some op)
  | none => .error .cancelled

/-- What calls on a pool come to, one after another, that was cancelled with these ops ready. -/
structure Refuses (ready : List Op) (calls : List Returned) : Prop where
  polls : polledIn calls = (List.range (polledIn calls).length).map (lastAnswer ready)
  shifts : ∀ answer, .shifted answer ∈ calls → answer = .error .cancelled
  /-- After a refill was refused no op is taken any more. -/
  offers : calls.Pairwise fun earlier later => earlier.Failed →
    ∀ answer, later = .offered answer → answer = .error (.illegalState .poolClosed)

namespace Refuses

variable {ready : List Op} {calls : List Returned}

theorem nil (ready : List Op) : Refuses ready [] := ⟨rfl, nofun, .nil⟩

theorem concat_polled (h : Refuses ready calls) :
    Refuses ready (calls ++ [.polled (lastAnswer ready (polledIn calls).length)]) where
  polls := by
    rw [polledIn_append, polledIn_polled, polledIn_nil, List.length_append, List.length_singleton,
      List.range_succ, List.map_append, ← h.polls, List.map_singleton]
  shifts answer hm := h.shifts answer (by simpa using hm)
  offers := List.pairwise_append.2 ⟨h.offers, List.pairwise_singleton _ _, by simp⟩

theorem concat_shifted (h : Refuses ready calls) :
    Refuses ready (calls ++ [.shifted (.error .cancelled)]) where
  polls := by simpa using h.polls
  shifts answer hm := by
    rcases List.mem_append.1 hm with hm | hm
    · exact h.shifts answer hm
    · simpa using hm
  offers := List.pairwise_append.2 ⟨h.offers, List.pairwise_singleton _ _, by simp⟩

theorem concat_offered (h : Refuses ready calls) {answer : Except Fault Unit}
    (hrefused : (∃ call ∈ calls, call.Failed) → answer = .error (.illegalState .poolClosed)) :
    Refuses ready (calls ++ [.offered answer]) where
  polls := by simpa using h.polls
  shifts answer hm := h.shifts answer (by simpa using hm)
  offers := by
    refine List.pairwise_append.2 ⟨h.offers, List.pairwise_singleton _ _, fun call hm later hl => ?_⟩
    rw [List.mem_singleton.1 hl]
    rintro hfailed _ ⟨rfl⟩
    exact hrefused ⟨call, hm, hfailed⟩

theorem none_notMem (h : Refuses ready calls) : .ok none ∉ polledIn calls := by
  rw [h.polls]
  intro hm
  obtain ⟨number, -, hlast⟩ := List.mem_map.1 hm
  rw [lastAnswer] at hlast
  split at hlast <;> cases hlast

end Refuses

/-- After these calls so much is left of what was ready, and once one of them failed the pool is
closed. -/
structure Leaves (ready left : List Op) (isOpen : Bool) (calls : List Returned) : Prop where
  refuses : Refuses ready calls
  left_eq : left = ready.drop (polledIn calls).length
  closed : (∃ call ∈ calls, call.Failed) → isOpen = false

namespace Leaves

variable {ready left : List Op} {isOpen : Bool} {calls : List Returned}

theorem handed {op : Op} (h : Leaves ready (op :: left) isOpen calls) :
    Leaves ready left isOpen (calls ++ [.polled (.ok (some op))]) where
  refuses := by
    have hlast : lastAnswer ready (polledIn calls).length = .ok (some op) := by
      rw [lastAnswer, ← List.head?_drop, ← h.left_eq, List.head?_cons]
    exact hlast ▸ h.refuses.concat_polled
  left_eq := by
    rw [polledIn_append, polledIn_polled, polledIn_nil, List.length_append, List.length_singleton,
      ← List.drop_drop, ← h.left_eq]
    rfl
  closed hf := h.closed (by simpa [or_and_right, exists_or, Returned.Failed] using hf)

theorem refused (h : Leaves ready [] isOpen calls) :
    Leaves ready [] false (calls ++ [.polled (.error .cancelled)]) where
  refuses := by
    have hlast : lastAnswer ready (polledIn calls).length = .error .cancelled := by
      rw [lastAnswer, List.getElem?_eq_none (List.drop_eq_nil_iff.1 h.left_eq.symm)]
    exact hlast ▸ h.refuses.concat_polled
  left_eq := by
    rw [polledIn_append, List.length_append, ← List.drop_drop, ← h.left_eq, List.drop_nil]
  closed _ := rfl

theorem shifted (h : Leaves ready left isOpen calls) :
    Leaves ready left false (calls ++ [.shifted (.error .cancelled)]) where
  refuses := h.refuses.concat_shifted
  left_eq := by simpa using h.left_eq
  closed _ := rfl

theorem offered (h : Leaves ready left isOpen calls) {answer : Except Fault Unit}
    (hrefused : isOpen = false → answer = .error (.illegalState .poolClosed)) :
    Leaves ready left isOpen (calls ++ [.offered answer]) where
  refuses := h.refuses.concat_offered fun hf => hrefused (h.closed hf)
  left_eq := by simpa using h.left_eq
  closed hf := h.closed (by simpa [or_and_right, exists_or, Returned.Failed] using hf)

end Leaves

namespace Threads

variable {σ : Type} {feed : Feed σ} {t t' : Threads σ}

/-- A refill has just begun, or is being refused, or was refused, for having been cancelled. -/
def Refused (t : Threads σ) : Prop :=
  t.control = .checking ∨
    t.isOpen = false ∧
      (t.control = .joining (.error .cancelled) ∨ t.control = .returned (.error .cancelled))

/-- Between two steps that refuse a refill nothing is given or taken. -/
theorem Refused.step (h : t.Refused) (hk : t.cancelled = true) (hs : Step feed t t') :
    t'.Refused ∧ t'.buffers = t.buffers ∧ (t.isOpen = false → t'.isOpen = false) := by
  cases hs with
  | @work t' front worker worker' back _ hs =>
    have ha := hs.apart (front ++ worker' :: back)
    refine ⟨?_, ha.buffers, fun hclosed => ha.isOpen.trans hclosed⟩
    rw [Refused, ha.control, ha.isOpen]
    exact h
  | poll hs =>
    cases hs with
    | cancel => exact ⟨.inr ⟨rfl, .inl rfl⟩, rfl, fun _ => rfl⟩
    | quit hc =>
      obtain hc' | ⟨hclosed, hc' | hc'⟩ := h
      · simp [hc] at hc'
      · simp only [hc, Control.joining.injEq, Except.error.injEq] at hc'
        exact ⟨.inr ⟨hclosed, .inr (by rw [hc'])⟩, rfl, id⟩
      · simp [hc] at hc'
    | _ => simp_all [Refused]

theorem step_of_returned {answer : Except Fault Unit} (hc : t.control = .returned answer)
    (hs : Step feed t t') :
    t'.control = .returned answer ∧ t'.buffers = t.buffers ∧ t'.isOpen = t.isOpen := by
  cases hs with
  | work _ hs => exact ⟨(hs.apart _).control.trans hc, (hs.apart _).buffers, (hs.apart _).isOpen⟩
  | poll hs => cases hs <;> simp_all

end Threads

namespace Calling

variable {σ : Type}

/-- What stays true of a pool that was cancelled with these ops ready, when these calls were over. -/
structure Halted (ready : List Op) (before : List Returned) (c : Calling σ) : Prop where
  steady : c.Steady
  cancelled : c.threads.cancelled = true
  refused : c.current ≠ none → c.threads.Refused
  dry : c.current = some .poll → c.threads.buffers.ready = []
  came : ∃ later, c.calls = before ++ later ∧
    Leaves ready c.threads.buffers.ready c.threads.isOpen later

theorem Steady.halted {c : Calling σ} (h : c.Steady) (hk : c.threads.cancelled = true)
    (hidle : c.current = none) : Halted c.threads.buffers.ready c.calls c where
  steady := h
  cancelled := hk
  refused hc := absurd hidle hc
  dry hc := by simp [hidle] at hc
  came := ⟨[], by simp, .nil _, rfl, by simp⟩

private theorem came_concat {ready left left' : List Op} {isOpen isOpen' : Bool}
    {before calls : List Returned} {call : Returned}
    (h : ∃ later, calls = before ++ later ∧ Leaves ready left isOpen later)
    (hnext : ∀ later, Leaves ready left isOpen later → Leaves ready left' isOpen' (later ++ [call])) :
    ∃ later, calls ++ [call] = before ++ later ∧ Leaves ready left' isOpen' later := by
  obtain ⟨later, rfl, hleaves⟩ := h
  exact ⟨later ++ [call], List.append_assoc .., hnext later hleaves⟩

section Step

variable {base : Base σ} {ready : List Op} {before : List Returned} {t t' : Threads σ}
  {calls : List Returned} {current : Option Request} {c c' : Calling σ}

private theorem Halted.thread (h : Halted ready before ⟨t, calls, current⟩)
    (hs : Threads.Step base.toFeed t t') : Halted ready before ⟨t', calls, current⟩ := by
  have hsteady := (Goes.thread hs).steady h.steady
  have hk := (Threads.cancelled_step hs).trans h.cancelled
  suffices hkept : (current ≠ none → t'.Refused) ∧ t'.buffers = t.buffers ∧
      (t.isOpen = false → t'.isOpen = false) by
    obtain ⟨hrefused, hbuffers, hclosed⟩ := hkept
    obtain ⟨later, hcalls, hrefuses, hleft, hfailed⟩ := h.came
    refine ⟨hsteady, hk, hrefused, fun hc => ?_, later, hcalls, hrefuses, ?_, ?_⟩
    · exact (congrArg Buffers.ready hbuffers).trans (h.dry hc)
    · exact (congrArg Buffers.ready hbuffers).trans hleft
    · exact fun hf => hclosed (hfailed hf)
  by_cases hc : current = none
  · obtain ⟨answer, hover⟩ := h.steady.rests hc
    obtain ⟨-, hbuffers, hopen⟩ := Threads.step_of_returned hover hs
    exact ⟨absurd hc, hbuffers, fun hclosed => hopen.trans hclosed⟩
  · obtain ⟨hrefused, hbuffers, hclosed⟩ := (h.refused hc).step h.cancelled hs
    exact ⟨fun _ => hrefused, hbuffers, hclosed⟩

private theorem Halted.over (h : Halted ready before ⟨t, calls, current⟩) (hc : current ≠ none)
    {answer : Except Fault Unit} (hover : t.control = .returned answer) :
    answer = .error .cancelled ∧ t.isOpen = false := by
  obtain hc' | ⟨hclosed, hc' | hc'⟩ := h.refused hc
  · simp [hover] at hc'
  · simp [hover] at hc'
  · simp only [hover, Control.returned.injEq] at hc'
    exact ⟨hc', hclosed⟩

private theorem Halted.goes (h : Halted ready before c) (hg : Goes base.toFeed c c') :
    Halted ready before c' := by
  have hsteady := hg.steady h.steady
  cases hg with
  | thread hs => exact h.thread hs
  | given hover => cases (h.over nofun hover).1
  | dry hover => cases (h.over nofun hover).1
  | @failed t calls fault hover =>
    obtain ⟨hfault, hclosed⟩ := h.over nofun hover
    cases hfault
    refine ⟨hsteady, h.cancelled, nofun, nofun, ?_⟩
    rw [h.dry rfl, hclosed]
    exact came_concat (h.dry rfl ▸ h.came) fun _ => Leaves.refused
  | shifted hover =>
    obtain ⟨rfl, hclosed⟩ := h.over nofun hover
    refine ⟨hsteady, h.cancelled, nofun, nofun, ?_⟩
    rw [hclosed]
    exact came_concat h.came fun _ => Leaves.shifted

private theorem Halted.step (h : Halted ready before c) (hs : Step base c c') :
    Halted ready before c' := by
  have hsteady := hs.steady h.steady
  cases hs with
  | goes hg => exact h.goes hg
  | cancel => exact ⟨hsteady, rfl, h.refused, h.dry, h.came⟩
  | take hop =>
    exact ⟨hsteady, h.cancelled, nofun, nofun, came_concat (hop ▸ h.came) fun _ => Leaves.handed⟩
  | poll hready => exact ⟨hsteady, h.cancelled, fun _ => .inl rfl, fun _ => hready, h.came⟩
  | shift => exact ⟨hsteady, h.cancelled, fun _ => .inl rfl, nofun, h.came⟩
  | @offer t calls op =>
    obtain ⟨below, hoffer⟩ := t.exists_offer_eq base op
    rw [hoffer] at hsteady ⊢
    refine ⟨hsteady, h.cancelled, nofun, nofun, came_concat h.came fun _ hl => hl.offered ?_⟩
    exact fun hclosed => congrArg Prod.fst (t.offer_of_closed base op hclosed)

theorem Halted.reaches (h : Halted ready before c) (hr : Reaches base c c') :
    Halted ready before c' := by
  induction hr with
  | refl => exact h
  | tail _ hs ih => exact ih.step hs

/-- With nothing ready a poll is over some time, and was refused. -/
theorem Steady.exists_refused (base : Base σ) (h : Steady ⟨t, calls, none⟩)
    (hk : t.cancelled = true) (hready : t.buffers.ready = []) :
    ∃ c', Reaches base ⟨t, calls, none⟩ c' ∧ c'.threads.cancelled = true ∧ c'.current = none ∧
      c'.threads.buffers.ready = [] ∧ c'.calls = calls ++ [.polled (.error .cancelled)] := by
  have hs : Step base ⟨t, calls, none⟩ _ := .poll hready
  obtain ⟨c', answer, hgoes, hidle, hcalls⟩ := (hs.steady h).exists_polled base.toFeed rfl
  have hreaches : Reaches base ⟨t, calls, none⟩ c' :=
    .head hs (hgoes.lift id fun _ _ => .goes)
  have hhalted := (h.halted hk rfl).reaches hreaches
  rw [show (⟨t, calls, none⟩ : Calling σ).threads.buffers.ready = [] from hready] at hhalted
  obtain ⟨later, hlater, hleaves⟩ := hhalted.came
  obtain rfl : [.polled answer] = later := List.append_cancel_left (hcalls.symm.trans hlater)
  obtain rfl : answer = .error .cancelled := by simpa [lastAnswer] using hleaves.refuses.polls
  exact ⟨c', hreaches, hhalted.cancelled, hidle, by simpa using hleaves.left_eq, hcalls⟩

end Step

end Calling

namespace Feed

variable {σ τ : Type}

/-- From here on the feed answers as a pool may do, whose threads take turns in some order and on
which other calls may be made in between. -/
def Plays (feed : Feed τ) (base : Base σ) (s : τ) (c : Calling σ) : Prop :=
  ∀ answers s', feed.Polls s answers s' →
    ∃ c', Calling.Reaches base c c' ∧ polledIn c'.calls = polledIn c.calls ++ answers

/-- Ops one after another, and then no answer but that it was cancelled. -/
def refusing : Feed (List Op) where
  poll
    | [] => (.error .cancelled, [])
    | op :: ops => (.ok (some op), ops)
  rank := Script.weight
  rank_poll ops := by
    cases ops with
    | nil => exact Nat.le_refl _
    | cons op ops => exact Nat.le_of_eq (Nat.add_comm _ _)

theorem gives_refusing {P : Op → Prop} {ready : List Op} (h : ∀ op ∈ ready, P op) :
    refusing.Gives P ready := by
  refine gives_of_invariant (fun ready => ∀ op ∈ ready, P op) (fun ready h => ?_) h
  cases ready with
  | nil => exact ⟨nofun, h⟩
  | cons op ready =>
    exact ⟨fun other heq => h other (by cases heq; exact List.mem_cons_self),
      fun other hm => h other (List.mem_cons_of_mem _ hm)⟩

variable {base : Base σ}

/-- Once a pool was cancelled, its ready ops are all there is to how it goes on. -/
theorem plays_refusing {c : Calling σ} (h : c.Steady) (hk : c.threads.cancelled = true)
    (hidle : c.current = none) : refusing.Plays base c.threads.buffers.ready c := by
  intro answers
  induction answers generalizing c with
  | nil => exact fun _ _ => ⟨c, .refl, by simp⟩
  | cons answer answers ih =>
    rintro s' (_ | ⟨hpoll, hrest⟩)
    obtain ⟨t, calls, current⟩ := c
    cases hidle
    cases hready : t.buffers.ready with
    | cons op ready =>
      rw [hready] at hpoll
      cases hpoll
      have hs : Calling.Step base ⟨t, calls, none⟩ _ := .take hready
      obtain ⟨c', hreaches, hpolled⟩ := ih (hs.steady h) hk rfl _ hrest
      exact ⟨c', .head hs hreaches, by simp [hpolled]⟩
    | nil =>
      rw [hready] at hpoll
      cases hpoll
      obtain ⟨c', hfirst, hk', hidle', hready', hcalls⟩ := h.exists_refused base hk hready
      rw [← hready'] at hrest
      obtain ⟨last, hreaches, hpolled⟩ := ih (hfirst.steady h) hk' hidle' _ hrest
      exact ⟨last, hfirst.trans hreaches, by simp [hpolled, hcalls]⟩

end Feed

section Layer

variable {σ τ : Type} {below : Feed τ} {pool : Pool} {buffers : Buffers} {s : τ}

/-- The pool of one thread refuses as well, once it was cancelled. -/
theorem Pool.poll_of_cancelled (hk : pool.cancelled = true) (hready : buffers.ready = []) :
    (Layer.feed below).poll (pool.layer buffers s) =
      (.error .cancelled, Pool.layer { pool with isOpen := false } buffers s) := by
  refine Pool.poll_of_failed hready ?_
  have hpump : pool.pump below buffers s =
      (.error .cancelled, { pool with isOpen := false }, buffers, s) := by simp [Pool.pump, hk]
  rw [Pool.shift, hpump]

/-- It answers what it has ready, and then refuses. -/
theorem Pool.polls_of_cancelled {answers : List Answer} {last : Layer × τ}
    (hk : pool.cancelled = true)
    (hp : (Layer.feed below).Polls (pool.layer buffers s) answers last) :
    ∃ ready, Feed.refusing.Polls buffers.ready answers ready := by
  induction answers generalizing pool buffers with
  | nil => exact ⟨_, .nil⟩
  | cons answer answers ih =>
    obtain _ | ⟨hpoll, hrest⟩ := hp
    cases hready : buffers.ready with
    | nil =>
      rw [Pool.poll_of_cancelled hk hready] at hpoll
      cases hpoll
      have hk' : ({ pool with isOpen := false } : Pool).cancelled = true := hk
      obtain ⟨ready, hpolls⟩ := ih hk' hrest
      rw [hready] at hpolls
      exact ⟨ready, .cons rfl hpolls⟩
    | cons op rest =>
      rw [Pool.poll_of_ready hready] at hpoll
      cases hpoll
      obtain ⟨ready, hpolls⟩ := ih hk hrest
      exact ⟨ready, .cons rfl hpolls⟩

/-- A pool of one thread that was cancelled goes on as threads may do that were cancelled with the
same ops ready. -/
theorem Pool.plays_of_cancelled {base : Base σ} {c : Calling σ} (hk : pool.cancelled = true)
    (h : c.Steady) (hkc : c.threads.cancelled = true) (hidle : c.current = none)
    (hready : buffers.ready = c.threads.buffers.ready) :
    (Layer.feed below).Plays base (pool.layer buffers s) c := by
  intro answers last hp
  obtain ⟨ready, hpolls⟩ := polls_of_cancelled hk hp
  rw [hready] at hpolls
  exact Feed.plays_refusing h hkc hidle answers ready hpolls

end Layer

end BytePatch
