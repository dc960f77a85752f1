import BytePatch.Proofs.Queue.Runs

/-! What a feed still holds, kept as a script beside its state. A poll takes the first op off that
script, up to a relation between scripts; what a consumer has in its hands and what the feed still
holds then make up one script throughout, however the two are interleaved. -/
namespace BytePatch

/-- A relation of scripts that may stand for each other, and the scripts for which it is claimed.
It may be used inside a longer script and step after step. -/
structure Refinement where
  Fit : Script → Prop
  Rel : Script → Script → Prop
  refl (xs : Script) : Rel xs xs
  trans {xs ys zs : Script} : Rel xs ys → Rel ys zs → Rel xs zs
  append {xs xs' ys ys' : Script} : Rel xs xs' → Rel ys ys' → Rel (xs ++ ys) (xs' ++ ys')
  fit {xs ys : Script} : Rel xs ys → Fit xs → Fit ys
  left {xs ys : Script} : Fit (xs ++ ys) → Fit xs
  right {xs ys : Script} : Fit (xs ++ ys) → Fit ys

namespace Refinement

/-- Scripts stand for themselves only. -/
def equality : Refinement where
  Fit _ := True
  Rel xs ys := xs = ys
  refl _ := rfl
  trans h h' := h.trans h'
  append h h' := by rw [h, h']
  fit _ _ := trivial
  left _ := trivial
  right _ := trivial

/-- Whatever is sure of all ops of the one script is sure of all ops of the other. -/
def every (P : Op → Prop) : Refinement where
  Fit _ := True
  Rel xs ys := (∀ op ∈ xs, P op) → ∀ op ∈ ys, P op
  refl _ := id
  trans h h' hx := h' (h hx)
  append {xs xs' ys ys'} hx hy h op hop := by
    rcases List.mem_append.1 hop with hop | hop
    · exact hx (fun op hop => h op (List.mem_append_left _ hop)) op hop
    · exact hy (fun op hop => h op (List.mem_append_right _ hop)) op hop
  fit _ _ := trivial
  left _ := trivial
  right _ := trivial

theorem head (R : Refinement) {op : Op} {ops : Script} (h : R.Fit (op :: ops)) : R.Fit [op] :=
  R.left h

theorem tail (R : Refinement) {op : Op} {ops : Script} (h : R.Fit (op :: ops)) : R.Fit ops := by
  rw [← List.singleton_append] at h
  exact R.right h

theorem prepend (R : Refinement) (xs : Script) {ys ys' : Script} (h : R.Rel ys ys') :
    R.Rel (xs ++ ys) (xs ++ ys') := R.append (R.refl xs) h

end Refinement

/-- What happens after an op: one thing holds if the consumer wants more, another if it is done. -/
def Next.Holds {α β : Type} (more : α → Prop) (done : β → Prop) : Next α β → Prop
  | .more state => more state
  | .done result => done result

theorem Next.Holds.imp {α β : Type} {more more' : α → Prop} {done done' : β → Prop}
    {next : Next α β} (h : next.Holds more done) (hm : ∀ a, more a → more' a)
    (hd : ∀ b, done b → done' b) : next.Holds more' done' := by
  cases next with
  | more state => exact hm _ h
  | done result => exact hd _ h

/-- What holds at the end of a consumer's polling, by how it ended. -/
def Outcome.Holds {α β : Type} (done : β → Prop) (dry : α → Prop) (failed : Fault → Prop) :
    Outcome α β → Prop
  | .done result => done result
  | .dry state => dry state
  | .failed fault _ => failed fault

theorem Outcome.Holds.imp {α β : Type} {done done' : β → Prop} {dry dry' : α → Prop}
    {failed : Fault → Prop} {outcome : Outcome α β} (h : outcome.Holds done dry failed)
    (hdone : ∀ b, done b → done' b) (hdry : ∀ a, dry a → dry' a) :
    outcome.Holds done' dry' failed := by
  cases outcome with
  | done result => exact hdone _ h
  | dry state => exact hdry _ h
  | failed fault state => exact h

namespace Feed
variable {σ α β : Type}

/-- `content` is what the feed holds in a sound state. Nothing is said of the states after a
failed poll. -/
structure Ledger (feed : Feed σ) (R : Refinement) (Fails : Fault → Prop) where
  Sound : σ → Prop
  content : σ → Script
  fit {s} : Sound s → R.Fit (content s)
  op {s s' op} : Sound s → feed.poll s = (.ok (some op), s') →
    Sound s' ∧ R.Rel (content s) (op :: content s')
  dry {s s'} : Sound s → feed.poll s = (.ok none, s') →
    Sound s' ∧ content s' = [] ∧ R.Rel (content s) []
  failed {s s' fault} : Sound s → feed.poll s = (.error fault, s') → Fails fault

namespace Ledger
variable {feed : Feed σ} {R : Refinement} {Fails : Fault → Prop}

/-- Polls that take ops off a script related to the one they leave make a feed fit for coarser
relations of the same scripts. -/
def weaken (L : feed.Ledger R Fails) (R' : Refinement)
    (h : ∀ {xs ys}, R.Fit xs → R'.Fit xs → R.Rel xs ys → R'.Rel xs ys) :
    feed.Ledger R' Fails where
  Sound s := L.Sound s ∧ R'.Fit (L.content s)
  content := L.content
  fit hs := hs.2
  op hs hp := by
    obtain ⟨hs', hr⟩ := L.op hs.1 hp
    have hr' := h (L.fit hs.1) hs.2 hr
    exact ⟨⟨hs', R'.tail (R'.fit hr' hs.2)⟩, hr'⟩
  dry hs hp := by
    obtain ⟨hs', hc, hr⟩ := L.dry hs.1 hp
    have hr' := h (L.fit hs.1) hs.2 hr
    exact ⟨⟨hs', hc ▸ R'.fit hr' hs.2⟩, hc, hr'⟩
  failed hs hp := L.failed hs.1 hp

/-- Other failures may be allowed for. -/
def allowing (L : feed.Ledger R Fails) {Fails' : Fault → Prop} (h : ∀ f, Fails f → Fails' f) :
    feed.Ledger R Fails' :=
  { L with failed := fun hs hp => h _ (L.failed hs hp) }

/-- How the books are kept between offers. They are fit for a poll where something more is sure. An
op that is offered, unless it is refused, is the last of all that is held then. -/
structure Takes (L : feed.Ledger R Fails) (Booked Sure : σ → Prop)
    (offer : Op → σ → Except Fault Unit × σ) : Prop where
  booked {s} : L.Sound s → Booked s
  sound {s} : Booked s → Sure s → L.Sound s
  takes {s s' op} : Booked s → R.Fit (L.content s ++ [op]) → offer op s = (.ok (), s') →
    Booked s' ∧ L.content s' = L.content s ++ [op]

theorem Takes.weaken {L : feed.Ledger R Fails} {Booked Sure : σ → Prop}
    {offer : Op → σ → Except Fault Unit × σ} (h : L.Takes Booked Sure offer) (R' : Refinement)
    (hr : ∀ {xs ys}, R.Fit xs → R'.Fit xs → R.Rel xs ys → R'.Rel xs ys)
    (hfit : ∀ xs, R'.Fit xs → R.Fit xs) :
    (L.weaken R' hr).Takes (fun s => Booked s ∧ R'.Fit (L.content s)) Sure offer where
  booked hs := ⟨h.booked hs.1, hs.2⟩
  sound hb hsure := ⟨h.sound hb.1 hsure, hb.2⟩
  takes hb hf ho := by
    obtain ⟨hb', hc⟩ := h.takes hb.1 (hfit _ hf) ho
    exact ⟨⟨hb', hc ▸ hf⟩, hc⟩

theorem held_eq_nil (L : feed.Ledger R Fails) (hnothing : ∀ {ops}, R.Rel [] ops → ops = []) {s : σ}
    (hs : L.Sound s) (hc : L.content s = []) : feed.held s = [] := by
  rcases hp : feed.poll s with ⟨fault | - | op, s'⟩
  · exact held_failed hp
  · exact held_dry hp
  · obtain ⟨-, hr⟩ := L.op hs hp
    rw [hc] at hr
    exact absurd (hnothing hr) (List.cons_ne_nil op _)

/-- What a consumer has in hand and what the feed holds stay related to what both had at first.
`kept` and `given` read the ops off a consumer's states and results. -/
theorem consume (L : feed.Ledger R Fails) (step : α → Op → Next α β) (kept : α → Script)
    (given : β → Script) (More : α → Prop) (Done : β → Prop)
    (hstep : ∀ a op, More a → R.Fit (kept a ++ [op]) →
      (step a op).Holds (fun a' => More a' ∧ R.Rel (kept a ++ [op]) (kept a'))
        (fun b => Done b ∧ R.Rel (kept a ++ [op]) (given b)))
    {a : α} {s : σ} (hs : L.Sound s) (ha : More a) (hf : R.Fit (kept a ++ L.content s)) :
    (feed.consume step a s).1.Holds
      (fun b => L.Sound (feed.consume step a s).2 ∧ Done b ∧
        R.Rel (kept a ++ L.content s) (given b ++ L.content (feed.consume step a s).2))
      (fun a' => L.Sound (feed.consume step a s).2 ∧ More a' ∧
        L.content (feed.consume step a s).2 = [] ∧ R.Rel (kept a ++ L.content s) (kept a'))
      Fails := by
  induction a, s using Feed.consume.induct feed step with
  | case1 a s fault s' hp =>
    rw [consume_failed hp]
    exact L.failed hs hp
  | case2 a s s' hp =>
    rw [consume_dry hp]
    obtain ⟨hs', hc, hr⟩ := L.dry hs hp
    exact ⟨hs', ha, hc, by simpa using R.prepend (kept a) hr⟩
  | case3 a s op s' hp b hb =>
    rw [consume_done hp hb]
    obtain ⟨hs', hr⟩ := L.op hs hp
    have hr' : R.Rel (kept a ++ L.content s) ((kept a ++ [op]) ++ L.content s') := by
      simpa using R.prepend (kept a) hr
    have hn := hstep a op ha (R.left (R.fit hr' hf))
    rw [hb] at hn
    exact ⟨hs', hn.1, R.trans hr' (R.append hn.2 (R.refl _))⟩
  | case4 a s op s' hp a' hm ih =>
    rw [consume_more hp hm]
    obtain ⟨hs', hr⟩ := L.op hs hp
    have hr' : R.Rel (kept a ++ L.content s) ((kept a ++ [op]) ++ L.content s') := by
      simpa using R.prepend (kept a) hr
    have hn := hstep a op ha (R.left (R.fit hr' hf))
    rw [hm] at hn
    have hr'' := R.trans hr' (R.append hn.2 (R.refl _))
    refine (ih hs' hn.1 (R.fit hr'' hf)).imp ?_ ?_
    · exact fun b h => ⟨h.1, h.2.1, R.trans hr'' h.2.2⟩
    · exact fun a' h => ⟨h.1, h.2.1, h.2.2.1, R.trans hr'' h.2.2.2⟩

/-- What a refill of an empty ready buffer does unless it fails: buffers and feed together still
hold what they held, and nothing is ready only if nothing is left. -/
def Refills (L : feed.Ledger R Fails) (Steady : List Op → σ → Prop) (xs : Script) :
    Except Fault Unit × Buffers × σ → Prop
  | (.error fault, _, _) => Fails fault
  | (.ok (), buffers, s) => L.Sound s ∧ Steady buffers.pending s ∧
    R.Rel xs (buffers.ready ++ (buffers.pending ++ L.content s)) ∧
    (buffers.ready = [] → buffers.pending = [] ∧ L.content s = [])

/-- How many ops are pending if the feed could be made to give enough of them. -/
theorem require (L : feed.Ledger R Fails) (count : Nat) (pending : List Op) {s : σ}
    (hs : L.Sound s) (hf : R.Fit (pending ++ L.content s)) :
    match feed.require count pending s with
    | (.error fault, _, _) => Fails fault
    | (.ok enough, pending', s') => L.Sound s' ∧
      R.Rel (pending ++ L.content s) (pending' ++ L.content s') ∧
      if enough then count ≤ pending'.length else pending'.length < count ∧ L.content s' = [] := by
  unfold Feed.require
  by_cases hc : count ≤ pending.length
  · rw [if_pos hc]
    exact ⟨hs, R.refl _, hc⟩
  rw [if_neg hc]
  have key := L.consume (Feed.require.gather count) id id (fun pending => pending.length < count)
    (fun pending => count ≤ pending.length)
    (fun a op ha _ => by
      unfold Feed.require.gather
      by_cases h : count ≤ (a ++ [op]).length
      · simp only [if_pos h]; exact ⟨h, R.refl _⟩
      · simp only [if_neg h]; exact ⟨Nat.lt_of_not_le h, R.refl _⟩)
    hs (Nat.lt_of_not_le hc) hf
  generalize feed.consume (Feed.require.gather count) pending s = result at key
  obtain ⟨outcome, s'⟩ := result
  cases outcome with
  | done pending' => exact ⟨key.1, key.2.2, key.2.1⟩
  | dry pending' => exact ⟨key.1, by simpa [key.2.2.1] using key.2.2.2, key.2.1, key.2.2.1⟩
  | failed fault pending' => exact key

theorem require_one (L : feed.Ledger R Fails) (pending : List Op) {s : σ} (hs : L.Sound s)
    (hf : R.Fit (pending ++ L.content s)) :
    match feed.require 1 pending s with
    | (.error fault, _, _) => Fails fault
    | (.ok _, [], s') => L.Sound s' ∧ L.content s' = [] ∧ R.Rel (pending ++ L.content s) []
    | (.ok _, op :: rest, s') => L.Sound s' ∧
      R.Rel (pending ++ L.content s) (op :: (rest ++ L.content s')) := by
  have key := L.require 1 pending hs hf
  generalize feed.require 1 pending s = result at key
  obtain ⟨fault | enough, pending', s'⟩ := result
  · exact key
  obtain ⟨hs', hr, he⟩ := key
  cases pending' with
  | nil =>
    cases enough with
    | true => exact absurd he (by simp)
    | false =>
      have hc : L.content s' = [] := he.2
      exact ⟨hs', hc, by simpa [hc] using hr⟩
  | cons op rest => exact ⟨hs', hr⟩

theorem drain (L : feed.Ledger R Fails) {s : σ} (hs : L.Sound s) :
    match feed.drain s with
    | (.error fault, _, _) => Fails fault
    | (.ok (), ops, s') => L.Sound s' ∧ L.content s' = [] ∧ R.Rel (L.content s) ops := by
  have key := L.consume keepAll List.reverse (fun b => nomatch b) (fun _ => True)
    (fun b => nomatch b)
    (fun a op _ _ => ⟨trivial, by simpa using R.refl _⟩) (a := []) hs trivial
    (by simpa using L.fit hs)
  unfold Feed.drain
  generalize feed.consume keepAll [] s = result at key
  obtain ⟨outcome, s'⟩ := result
  cases outcome with
  | done b => exact nomatch b
  | dry kept => exact ⟨key.1, key.2.2.1, by simpa using key.2.2.2⟩
  | failed fault kept => exact key

end Ledger

end Feed

end BytePatch
