import BytePatch.Proofs.Stage.Merging
import BytePatch.Proofs.Stage.Pairs
import BytePatch.Proofs.Stage.Passing
import BytePatch.Proofs.Stage.Regions
import BytePatch.Queue.Basic

/-! Ledgers of whole stacks: a layer whose rule keeps scripts in a relation hands on what is held
below it, so any number of such layers in any order does. -/
namespace BytePatch

namespace Work

/-- The rule of the layer keeps scripts in the relation. Taking scripts back is no such rule. -/
def Within (R : Refinement) (Fails : Fault → Prop) : Work → Prop
  | .coalesce => ∀ a b op, R.Fit [a, b] → a.merge? b = some op → R.Rel [a, b] [op]
  | .compact => ∀ a b op, R.Fit [a, b] → a.combine? b = some op → R.Rel [a, b] [op]
  | .chunk size => (∀ op, R.Fit [op] → R.Rel [op] (Chunk.pieces size op)) ∧
    ∀ a b, Chunk.replaces a b → R.Fit [a, b] →
      R.Rel [a, b] (Chunk.interleave (Chunk.pieces size a) (Chunk.pieces size b))
  | .unchunk => ∀ first rest, (∀ op ∈ rest, Unchunk.sameRegion first op) →
    R.Fit (first :: rest) → R.Rel (first :: rest) (Unchunk.regroup first.kind (first :: rest))
  | .forget => ∀ op : Op, R.Fit [op] → R.Rel [op] [op.forget]
  | .pump _ => True
  | .align aligner => aligner.Within R Fails
  | .pool state => state.aligner.Within R Fails
  | .undo | .rewind _ => False

/-- What the layer holds between its ready and its pending ops. -/
def held : Work → Script
  | .pump state => state.coming
  | .pool state => state.script
  | _ => []

/-- What is true of a layer between two refills, given its pending ops and what is still below. -/
def Steady (pending rest : Script) : Work → Prop
  | .coalesce => pending.length ≤ 1
  | .forget => pending = []
  | .pump state => state.Steady pending rest
  | .pool state => state.Steady pending rest
  | _ => True

/-- What all pairs have that the layer comes to if the rest is all that is still held below it. -/
def Pairs (P : Aligner → Bytes → Bytes → Prop) (pending rest : Script) : Work → Prop
  | .align aligner => Entry.Pairs (P aligner) (Entry.cut (pending ++ rest))
  | .pool state => Entry.Pairs (P state.aligner) (state.chain ++ Entry.cut (pending ++ rest))
  | _ => True

theorem Pairs.imp {P Q : Aligner → Bytes → Bytes → Prop} {work : Work} {pending rest : Script}
    (h : work.Pairs P pending rest)
    (hpq : ∀ {aligner orig target}, P aligner orig target → Q aligner orig target) :
    work.Pairs Q pending rest := by
  cases work with
  | align aligner => exact Entry.Pairs.imp h fun _ _ => hpq
  | pool state => exact Entry.Pairs.imp h fun _ _ => hpq
  | _ => trivial

/-- Nothing has been put into the layer yet. -/
def Fresh : Work → Prop
  | .pump state => state = .new
  | .pool state => state.chain = [] ∧ state.isOpen = true ∧ state.cancelled = false ∧
    0 < state.workers
  | _ => True

theorem Fresh.held {work : Work} (h : work.Fresh) : work.held = [] := by
  cases work with
  | pump pump => cases h; rfl
  | pool pool => simp [Work.held, Pool.script, h.1]
  | _ => rfl

theorem Fresh.steady {work : Work} (h : work.Fresh) (rest : Script) : work.Steady [] rest := by
  cases work with
  | coalesce => exact Nat.zero_le _
  | forget => rfl
  | pump pump => cases h; exact ⟨rfl, nofun⟩
  | pool pool => exact ⟨h.2.2.2, h.2.2.1, fun hc => by simp [h.2.1] at hc⟩
  | _ => trivial

theorem Steady.passing {work : Work} {pending rest : Script} (h : work.Steady pending rest)
    (hpump : ∀ pump, work = .pump pump → pump.drained = false)
    (hpool : ∀ pool, work = .pool pool → pool.isOpen = true) (rest' : Script) :
    work.Steady pending rest' := by
  cases work with
  | pump pump => exact ⟨h.pending_eq, fun hd => by simp [hpump pump rfl] at hd⟩
  | pool pool => exact ⟨h.staffed, h.going, fun hc => by simp [hpool pool rfl] at hc⟩
  | _ => exact h

end Work

/-- What all pairs have that the layers of a stack come to if it is drained. -/
def Stack.Pairs {σ : Type} (P : Aligner → Bytes → Bytes → Prop) (base : Base σ) :
    (depth : Nat) → Stack σ depth → Prop
  | 0, _ => True
  | depth + 1, (layer, below) =>
    layer.work.Pairs P layer.buffers.pending ((feed base depth).held below) ∧
      Pairs P base depth below

theorem Stack.Pairs.imp {σ : Type} {P Q : Aligner → Bytes → Bytes → Prop} {base : Base σ}
    {depth : Nat} {stack : Stack σ depth} (h : Stack.Pairs P base depth stack)
    (hpq : ∀ {aligner orig target}, P aligner orig target → Q aligner orig target) :
    Stack.Pairs Q base depth stack := by
  induction depth with
  | zero => trivial
  | succ depth ih => exact ⟨h.1.imp hpq, ih h.2⟩

/-- An op that is taken is kept by a pump that is full, or else passed on. -/
theorem Stack.offer_ok {σ : Type} {base : Base σ} {depth : Nat} {op : Op} {layer : Layer}
    {below : Stack σ depth} {result : Stack σ (depth + 1)}
    (h : offer base (depth + 1) op (layer, below) = (.ok (), result)) :
    (∃ pump, layer.work = .pump pump ∧ pump.drained = true ∧
      result = ({ layer with work := .pump (pump.push op) }, below)) ∨
    ∃ below', (∀ pump, layer.work = .pump pump → pump.drained = false) ∧
      (∀ pool, layer.work = .pool pool → pool.isOpen = true) ∧
      offer base depth op below = (.ok (), below') ∧ result = (layer, below') := by
  obtain ⟨buffers, work⟩ := layer
  rcases ho : offer base depth op below with ⟨answer, below'⟩
  cases work with
  | pump pump =>
    cases hd : pump.drained with
    | true =>
      simp only [offer, hd, if_true] at h
      cases h
      exact .inl ⟨pump, rfl, hd, rfl⟩
    | false =>
      simp only [offer, hd, ho, Bool.false_eq_true, if_false] at h
      cases h
      exact .inr ⟨below', by simp [hd], by simp, rfl, rfl⟩
  | pool pool =>
    cases hopen : pool.isOpen with
    | true =>
      simp only [offer, hopen, ho, if_true] at h
      cases h
      exact .inr ⟨below', by simp, by simp [hopen], rfl, rfl⟩
    | false =>
      simp only [offer, hopen, Bool.false_eq_true, if_false] at h
      cases h
  | _ =>
    simp only [offer, ho] at h
    cases h
    exact .inr ⟨below', by simp, by simp, rfl, rfl⟩

namespace Layer
variable {σ : Type} {below : Feed σ} {R : Refinement} {Fails : Fault → Prop}

/-- What a refill of an empty ready buffer does unless it fails, told by what the layer holds
besides its ready ops: nothing is ready only if nothing is held. -/
def Refilled (R : Refinement) (Fails : Fault → Prop) (Sound : Work → List Op → σ → Prop)
    (rest : Work → List Op → σ → Script) (xs : Script) : Except Fault Unit × Layer × σ → Prop
  | (.error fault, _, _) => Fails fault
  | (.ok (), layer, s) => Sound layer.work layer.buffers.pending s ∧
    R.Rel xs (layer.buffers.ready ++ rest layer.work layer.buffers.pending s) ∧
    (layer.buffers.ready = [] → rest layer.work layer.buffers.pending s = [])

/-- How a layer is kept on the books: what is true between two refills and what is held then, both
told without the ops that are ready. -/
structure Account (below : Feed σ) (R : Refinement) (Fails : Fault → Prop) where
  Sound : Work → List Op → σ → Prop
  rest : Work → List Op → σ → Script
  refill {work pending s} : Sound work pending s → R.Fit (rest work pending s) →
    Refilled R Fails Sound rest (rest work pending s) (shift below ⟨⟨[], pending⟩, work⟩ s)

namespace Account

/-- What comes out of a layer next are the ops that are ready. -/
private def content (A : Account below R Fails) (layer : Layer) (s : σ) : Script :=
  layer.buffers.ready ++ A.rest layer.work layer.buffers.pending s

private structure Holds (A : Account below R Fails) (layer : Layer) (s : σ) : Prop where
  sound : A.Sound layer.work layer.buffers.pending s
  fit : R.Fit (A.content layer s)

private theorem pop {A : Account below R Fails} {layer : Layer} {s : σ} (h : A.Holds layer s)
    {op : Op} {ready : List Op} (hready : layer.buffers.ready = op :: ready) :
    A.Holds { layer with buffers := { layer.buffers with ready } } s ∧
      A.content layer s =
        op :: A.content { layer with buffers := { layer.buffers with ready } } s := by
  have hc : A.content layer s =
      op :: A.content { layer with buffers := { layer.buffers with ready } } s := by
    simp [content, hready]
  have hf := h.fit
  rw [hc] at hf
  exact ⟨⟨h.sound, R.tail hf⟩, hc⟩

private theorem poll_holds {A : Account below R Fails} {layer : Layer} {s : σ}
    (h : A.Holds layer s) :
    match poll below (layer, s) with
    | (.error fault, _, _) => Fails fault
    | (.ok none, layer', s') => A.Holds layer' s' ∧ A.content layer' s' = [] ∧
      R.Rel (A.content layer s) []
    | (.ok (some op), layer', s') => A.Holds layer' s' ∧
      R.Rel (A.content layer s) (op :: A.content layer' s') := by
  unfold poll
  dsimp only
  cases hready : layer.buffers.ready with
  | cons op ready =>
    obtain ⟨hs, hc⟩ := pop h hready
    exact ⟨hs, hc ▸ R.refl _⟩
  | nil =>
    obtain ⟨⟨ready, pending⟩, work⟩ := layer
    obtain rfl : ready = [] := hready
    have hf := h.fit
    have hc : A.content ⟨⟨[], pending⟩, work⟩ s = A.rest work pending s := rfl
    rw [hc] at hf ⊢
    have key := A.refill h.sound hf
    generalize shift below ⟨⟨[], pending⟩, work⟩ s = result at key
    obtain ⟨fault | _, layer', s'⟩ := result
    · exact key
    obtain ⟨hs', hr, hdry⟩ := key
    have h' : A.Holds layer' s' := ⟨hs', R.fit hr hf⟩
    dsimp only
    cases hready' : layer'.buffers.ready with
    | nil =>
      have hnil : A.content layer' s' = [] := by simp [content, hready', hdry hready']
      exact ⟨h', hnil, hnil ▸ hr⟩
    | cons op ready =>
      obtain ⟨hs, hc⟩ := pop h' hready'
      exact ⟨hs, hc ▸ hr⟩

/-- The ledger of what comes out on top. -/
def ledger (A : Account below R Fails) : (feed below).Ledger R Fails where
  Sound state := A.Holds state.1 state.2
  content state := A.content state.1 state.2
  fit h := h.fit
  op {s s' op} h hp := by
    have key := poll_holds h
    have hp : poll below (s.1, s.2) = (.ok (some op), s') := hp
    rw [hp] at key
    exact key
  dry {s s'} h hp := by
    have key := poll_holds h
    have hp : poll below (s.1, s.2) = (.ok none, s') := hp
    rw [hp] at key
    exact key
  failed {s s' fault} h hp := by
    have key := poll_holds h
    have hp : poll below (s.1, s.2) = (.error fault, s') := hp
    rw [hp] at key
    exact key

theorem sound_new {A : Account below R Fails} {work : Work} {s : σ} (h : A.Sound work [] s)
    (hf : R.Fit (A.rest work [] s)) :
    A.ledger.Sound (.new work, s) ∧ A.ledger.content (.new work, s) = A.rest work [] s :=
  ⟨⟨h, hf⟩, rfl⟩

end Account

/-- The books of a layer by what is true of it between two refills. -/
private def Sound (L : below.Ledger R Fails) (work : Work) (pending : List Op) (s : σ) : Prop :=
  L.Sound s ∧ work.Within R Fails ∧ work.Steady pending (L.content s) ∧
    work.Pairs (Aligner.Keeps R) pending (below.held s)

private def rest (L : below.Ledger R Fails) (work : Work) (pending : List Op) (s : σ) : Script :=
  work.held ++ (pending ++ L.content s)

private theorem refilled_of_refills {L : below.Ledger R Fails} {work : Work}
    (hw : work.Within R Fails) (hheld : work.held = []) {Steady : List Op → σ → Prop}
    (hsteady : ∀ {pending s}, Steady pending s →
      work.Steady pending (L.content s) ∧ work.Pairs (Aligner.Keeps R) pending (below.held s))
    {xs : Script} {result : Except Fault Unit × Buffers × σ} (h : L.Refills Steady xs result) :
    Refilled R Fails (Sound L) (rest L) xs (result.1, ⟨result.2.1, work⟩, result.2.2) := by
  obtain ⟨fault | _, buffers, s⟩ := result
  · exact h
  obtain ⟨hs, hst, hr, hdry⟩ := h
  have hc : rest L work buffers.pending s = buffers.pending ++ L.content s := by
    simp [rest, hheld]
  refine ⟨⟨hs, hw, hsteady hst⟩, hc ▸ hr, fun hn => ?_⟩
  obtain ⟨hp, hcs⟩ := hdry hn
  exact hc.trans (by simp [hp, hcs])

private theorem refilled_shift (L : below.Ledger R Fails) {work : Work} {pending : List Op} {s : σ}
    (h : Sound L work pending s) (hf : R.Fit (rest L work pending s)) :
    Refilled R Fails (Sound L) (rest L) (rest L work pending s)
      (shift below ⟨⟨[], pending⟩, work⟩ s) := by
  obtain ⟨hs, hw, hst, hkeeps⟩ := h
  have plain : work.held = [] → rest L work pending s = pending ++ L.content s := by
    intro hh
    simp [rest, hh]
  cases work with
  | coalesce =>
    rw [plain rfl] at hf ⊢
    exact refilled_of_refills hw rfl (fun h => ⟨h, trivial⟩)
      (Coalesce.refills L hw hs hst hf)
  | compact =>
    rw [plain rfl] at hf ⊢
    exact refilled_of_refills hw rfl (fun _ => ⟨trivial, trivial⟩)
      (Compact.refills L hw hs hf)
  | chunk size =>
    rw [plain rfl] at hf ⊢
    exact refilled_of_refills hw rfl (fun _ => ⟨trivial, trivial⟩)
      (Chunk.refills L hw.1 hw.2 hs hf)
  | unchunk =>
    rw [plain rfl] at hf ⊢
    exact refilled_of_refills hw rfl (fun _ => ⟨trivial, trivial⟩)
      (Unchunk.refills L hw hs hf)
  | undo => exact hw.elim
  | forget =>
    obtain rfl : pending = [] := hst
    rw [plain rfl] at hf ⊢
    exact refilled_of_refills hw rfl (fun h => ⟨h, trivial⟩)
      (Pointwise.refills_forget L hw hs)
  | rewind orig => exact hw.elim
  | pump pump =>
    obtain rfl : pending = [] := hst.pending_eq
    have key := Pump.shift_holds L hs hst
    simp only [shift]
    generalize Pump.shift below pump ⟨[], []⟩ s = result at key
    obtain ⟨fault | _, pump', buffers', s'⟩ := result
    · exact key
    obtain ⟨hs', hst', hr, hdry⟩ := key
    refine ⟨⟨hs', trivial, hst', trivial⟩, hr, fun hn => ?_⟩
    obtain ⟨hc, hp, hcs⟩ := hdry hn
    simp [rest, Work.held, hc, hp, hcs]
  | align aligner =>
    rw [plain rfl] at hf ⊢
    exact refilled_of_refills hw rfl (fun h => ⟨trivial, h⟩)
      (Align.refills L hw hs hkeeps hf)
  | pool pool =>
    have key := Pool.shift_holds L hw ⟨[], pending⟩ rfl hs hst hkeeps hf
    simp only [shift]
    generalize Pool.shift below pool ⟨[], pending⟩ s = result at key
    obtain ⟨fault | _, pool', buffers', s'⟩ := result
    · exact key
    obtain ⟨hs', hal, hst', hkeeps', hr, hdry⟩ := key
    have hw' : pool'.aligner.Within R Fails := hal.symm ▸ hw
    rw [← hal] at hkeeps'
    refine ⟨⟨hs', hw', hst', hkeeps'⟩, hr, fun hn => ?_⟩
    obtain ⟨hc, hp, hcs⟩ := hdry hn
    simp [rest, Work.held, hc, hp, hcs]

/-- Layers whose rules keep scripts hand on what is held below them. -/
def account (L : below.Ledger R Fails) : Account below R Fails where
  Sound := Sound L
  rest := rest L
  refill := refilled_shift L

private theorem sound_account_new {L : below.Ledger R Fails} {work : Work}
    (hw : work.Within R Fails) (hf : work.Fresh) {s : σ}
    (hkeeps : work.Pairs (Aligner.Keeps R) [] (below.held s)) (hs : L.Sound s) :
    (account L).ledger.Sound (.new work, s) ∧
      (account L).ledger.content (.new work, s) = L.content s := by
  have hc : (account L).rest work [] s = L.content s := by simp [account, rest, hf.held]
  have h := Account.sound_new (A := account L) ⟨hs, hw, hf.steady _, hkeeps⟩ (hc ▸ L.fit hs)
  rwa [hc] at h

/-- The books of a layer between offers. -/
private structure Booked (L : below.Ledger R Fails) (Below : σ → Prop) (state : Layer × σ) :
    Prop where
  below : Below state.2
  within : state.1.work.Within R Fails
  steady : state.1.work.Steady state.1.buffers.pending (L.content state.2)
  fit : R.Fit ((account L).ledger.content state)

private theorem booked_new {L : below.Ledger R Fails} {Below : σ → Prop} {work : Work}
    (hw : work.Within R Fails) (hf : work.Fresh) {s : σ} (hs : Below s) (hfit : R.Fit (L.content s)) :
    Booked L Below (.new work, s) ∧ (account L).ledger.content (.new work, s) = L.content s := by
  have hc : (account L).ledger.content (.new work, s) = L.content s := by
    change (account L).rest work [] s = L.content s
    simp [account, rest, hf.held]
  exact ⟨⟨hs, hw, hf.steady _, hc ▸ hfit⟩, hc⟩

private theorem takes_account {base : Base σ} {depth : Nat}
    {L : (Stack.feed base depth).Ledger R Fails} {Below : Stack σ depth → Prop}
    {P : Aligner → Bytes → Bytes → Prop}
    (hkeeps : ∀ {aligner orig target}, P aligner orig target → aligner.Keeps R orig target)
    (h : L.Takes Below (Stack.Pairs P base depth) (Stack.offer base depth)) :
    (account L).ledger.Takes (Booked L Below) (Stack.Pairs P base (depth + 1))
      (Stack.offer base (depth + 1)) where
  booked {s} hs := ⟨h.booked hs.sound.1, hs.sound.2.1, hs.sound.2.2.1, hs.fit⟩
  sound hb hsure :=
    ⟨⟨h.sound hb.below hsure.2, hb.within, hb.steady, hsure.1.imp hkeeps⟩, hb.fit⟩
  takes {state result op} hb hf ho := by
    obtain ⟨⟨⟨ready, pending⟩, work⟩, s⟩ := state
    obtain ⟨hs, hw, hst, -⟩ := hb
    have hf : R.Fit (ready ++ (work.held ++ (pending ++ L.content s)) ++ [op]) := hf
    -- Whatever layer is left, it is enough to say what is true of it and what it holds.
    have booked {work' : Work} {s' : Stack σ depth} (hs' : Below s') (hw' : work'.Within R Fails)
        (hst' : work'.Steady pending (L.content s'))
        (hrest : rest L work' pending s' = rest L work pending s ++ [op]) :
        Booked L Below (⟨⟨ready, pending⟩, work'⟩, s') ∧
          (account L).ledger.content (⟨⟨ready, pending⟩, work'⟩, s') =
            (account L).ledger.content (⟨⟨ready, pending⟩, work⟩, s) ++ [op] := by
      have hc : ready ++ rest L work' pending s' =
          ready ++ (work.held ++ (pending ++ L.content s)) ++ [op] := by
        rw [hrest]
        simp [rest]
      exact ⟨⟨hs', hw', hst', show R.Fit (ready ++ rest L work' pending s') from hc ▸ hf⟩, hc⟩
    rcases Stack.offer_ok ho with ⟨pump, rfl, hd, rfl⟩ | ⟨s', hpump, hpool, ho', rfl⟩
    · obtain ⟨rfl, hdrained⟩ := hst
      exact booked hs trivial ⟨rfl, hdrained⟩ (by simp [rest, Work.held, Pump.push, hdrained hd])
    · have hf' : R.Fit (ready ++ work.held ++ pending ++ (L.content s ++ [op])) := by simpa using hf
      obtain ⟨hs', hc⟩ := h.takes hs (R.right hf') ho'
      exact booked hs' hw (hst.passing hpump hpool _) (by simp [rest, hc])

end Layer

/-- A source that was filled beforehand, or is still being filled, holds what is in its buffers. -/
private def Source.ledger : Source.feed.Ledger .equality fun _ => False where
  Sound source := source.origin = .list ∨ source.origin = .replacement ∨ source.origin = .offered
  content source := source.buffers.ready ++ source.buffers.pending
  fit _ := trivial
  op {s s' op} h hp := by
    obtain ⟨⟨ready, pending⟩, origin⟩ := s
    change Source.poll _ = _ at hp
    rcases h with rfl | rfl | rfl <;> cases ready <;> cases pending <;> cases hp <;>
      exact ⟨by simp, rfl⟩
  dry {s s'} h hp := by
    obtain ⟨⟨ready, pending⟩, origin⟩ := s
    change Source.poll _ = _ at hp
    rcases h with rfl | rfl | rfl <;> cases ready <;> cases pending <;> cases hp <;>
      exact ⟨by simp, rfl, rfl⟩
  failed {s s' fault} h hp := by
    obtain ⟨⟨ready, pending⟩, origin⟩ := s
    change Source.poll _ = _ at hp
    rcases h with rfl | rfl | rfl <;> cases ready <;> cases pending <;> cases hp

namespace Queue
variable {R : Refinement} {Fails : Fault → Prop}

/-- The queue is on the books with so many ops still to come out of it. -/
def Carries (R : Refinement) (Fails : Fault → Prop) (queue : Queue) (ops : Script) : Prop :=
  ∃ L : (Stack.feed Source.base queue.depth).Ledger R Fails,
    L.Sound queue.stack ∧ L.content queue.stack = ops

theorem carries_list (ops : Script) :
    (ofSource (.ofList ops)).Carries .equality (fun _ => False) ops :=
  ⟨Source.ledger, .inl rfl, rfl⟩

theorem carries_replacing (orig target : Bytes) :
    (ofSource (.replacing orig target)).Carries .equality (fun _ => False)
      (Script.removal orig ++ Script.addition target) :=
  ⟨Source.ledger, .inr (.inl rfl), rfl⟩

/-- What all pairs have that the layers of the queue come to if it is drained. -/
def Pairs (P : Aligner → Bytes → Bytes → Prop) (queue : Queue) : Prop :=
  Stack.Pairs P Source.base queue.depth queue.stack

theorem Pairs.imp {P Q : Aligner → Bytes → Bytes → Prop} {queue : Queue} (h : queue.Pairs P)
    (hpq : ∀ {aligner orig target}, P aligner orig target → Q aligner orig target) :
    queue.Pairs Q :=
  Stack.Pairs.imp h hpq

theorem Carries.under {queue : Queue} {ops : Script} (h : queue.Carries R Fails ops)
    (work : Work) (hw : work.Within R Fails) (hf : work.Fresh)
    (hkeeps : work.Pairs (Aligner.Keeps R) [] ((Stack.feed Source.base queue.depth).held queue.stack)) :
    (queue.under work).Carries R Fails ops := by
  obtain ⟨L, hs, rfl⟩ := h
  exact ⟨(Layer.account L).ledger, Layer.sound_account_new hw hf hkeeps hs⟩

theorem Carries.weaken {queue : Queue} {ops : Script} (h : queue.Carries R Fails ops)
    (R' : Refinement) {Fails' : Fault → Prop}
    (hr : ∀ {xs ys}, R.Fit xs → R'.Fit xs → R.Rel xs ys → R'.Rel xs ys)
    (hfails : ∀ fault, Fails fault → Fails' fault) (hf : R'.Fit ops) :
    queue.Carries R' Fails' ops := by
  obtain ⟨L, hs, rfl⟩ := h
  exact ⟨(L.weaken R' hr).allowing hfails, ⟨hs, hf⟩, rfl⟩

/-- The queue is on the books with so many ops still to come out of it, and so it is for the ops
it is offered. They are fit for a poll whenever all pairs have the property. -/
def Trades (P : Aligner → Bytes → Bytes → Prop) (R : Refinement) (Fails : Fault → Prop)
    (queue : Queue) (ops : Script) : Prop :=
  ∃ (L : (Stack.feed Source.base queue.depth).Ledger R Fails)
    (Booked : Stack Source queue.depth → Prop),
    L.Takes Booked (Stack.Pairs P Source.base queue.depth) (Stack.offer Source.base queue.depth) ∧
      Booked queue.stack ∧ R.Fit ops ∧ L.content queue.stack = ops

section Trades
variable {P : Aligner → Bytes → Bytes → Prop} {queue after : Queue} {ops : Script}

theorem Trades.carries (h : queue.Trades P R Fails ops) (hpairs : queue.Pairs P) :
    queue.Carries R Fails ops := by
  obtain ⟨L, Booked, ht, hb, -, hc⟩ := h
  exact ⟨L, ht.sound hb hpairs, hc⟩

theorem trades_offering : (ofSource .offering).Trades P .equality (fun _ => False) [] := by
  refine ⟨Source.ledger, Source.ledger.Sound, ⟨id, fun hb _ => hb, ?_⟩, .inr (.inr rfl), trivial, rfl⟩
  rintro ⟨⟨ready, pending⟩, origin⟩ s' op hb - ho
  change Source.offer op _ = _ at ho
  rcases hb with rfl | rfl | rfl <;> cases ho
  exact ⟨.inr (.inr rfl), (List.append_assoc ..).symm⟩

theorem Trades.under
    (hkeeps : ∀ {aligner orig target}, P aligner orig target → aligner.Keeps R orig target)
    (h : queue.Trades P R Fails ops) (work : Work) (hw : work.Within R Fails) (hf : work.Fresh) :
    (queue.under work).Trades P R Fails ops := by
  obtain ⟨L, Booked, ht, hb, hfit, rfl⟩ := h
  obtain ⟨hb', hc⟩ := Layer.booked_new (L := L) hw hf hb hfit
  exact ⟨_, _, Layer.takes_account hkeeps ht, hb', hfit, hc⟩

theorem Trades.weaken (h : queue.Trades P R Fails ops) (R' : Refinement) {Fails' : Fault → Prop}
    (hr : ∀ {xs ys}, R.Fit xs → R'.Fit xs → R.Rel xs ys → R'.Rel xs ys)
    (hfit : ∀ xs, R'.Fit xs → R.Fit xs) (hfails : ∀ fault, Fails fault → Fails' fault)
    (hf : R'.Fit ops) : queue.Trades P R' Fails' ops := by
  obtain ⟨L, Booked, ht, hb, -, rfl⟩ := h
  have ht' := ht.weaken R' hr hfit
  exact ⟨(L.weaken R' hr).allowing hfails, _, ⟨ht'.booked, ht'.sound, ht'.takes⟩, ⟨hb, hf⟩, hf, rfl⟩

theorem Trades.offer {op : Op} (h : queue.Trades P R Fails ops) (hf : R.Fit (ops ++ [op]))
    (ho : queue.offer op = (.ok (), after)) : after.Trades P R Fails (ops ++ [op]) := by
  obtain ⟨L, Booked, ht, hb, -, rfl⟩ := h
  rcases hr : Stack.offer Source.base queue.depth op queue.stack with ⟨answer, stack⟩
  simp only [Queue.offer, hr] at ho
  cases ho
  obtain ⟨hb', hc⟩ := ht.takes hb hf hr
  exact ⟨L, Booked, ht, hb', hf, hc⟩

theorem Trades.poll {answer : Answer} (h : queue.Trades P R Fails ops) (hpairs : queue.Pairs P)
    (hp : queue.poll = (answer, after)) :
    match answer with
    | .error fault => Fails fault
    | .ok none => R.Rel ops [] ∧ after.Trades P R Fails []
    | .ok (some op) => ∃ rest, R.Rel ops (op :: rest) ∧ after.Trades P R Fails rest := by
  obtain ⟨L, Booked, ht, hb, -, rfl⟩ := h
  have hs := ht.sound hb hpairs
  rcases hr : (Stack.feed Source.base queue.depth).poll queue.stack with ⟨fault | - | op, stack⟩
  · simp only [Queue.poll, hr] at hp
    cases hp
    exact L.failed hs hr
  · simp only [Queue.poll, hr] at hp
    cases hp
    obtain ⟨hs', hc, hrel⟩ := L.dry hs hr
    exact ⟨hrel, L, Booked, ht, ht.booked hs', hc ▸ L.fit hs', hc⟩
  · simp only [Queue.poll, hr] at hp
    cases hp
    obtain ⟨hs', hrel⟩ := L.op hs hr
    exact ⟨_, hrel, L, Booked, ht, ht.booked hs', L.fit hs', rfl⟩

end Trades

/-- All that a queue carries comes out when it is drained, unless a poll fails. -/
theorem Carries.drain {queue : Queue} {ops : Script} (h : queue.Carries R Fails ops) :
    match queue.drain with
    | (.error fault, _, _) => Fails fault
    | (.ok (), out, _) => R.Rel ops out := by
  obtain ⟨L, hs, rfl⟩ := h
  have key := L.drain hs
  unfold Queue.drain
  rcases hd : (Stack.feed Source.base queue.depth).drain queue.stack with ⟨fault | _, out, s'⟩
  · rw [hd] at key
    exact key
  · rw [hd] at key
    exact key.2.2

end Queue

end BytePatch
