import BytePatch.Proofs.Queue.Records

/-! The end of a queue is final. A source that has reported its end goes on to do so, and a layer that
holds no op finds nothing above a feed that has come to its end. -/
namespace BytePatch

open Feed (given Dry)

variable {σ α β : Type}

namespace Feed

/-- From here on the feed has nothing more, however often it is polled. -/
def Over (feed : Feed σ) (s : σ) : Prop :=
  ∀ polled s', feed.Polls s polled s' → ∀ answer ∈ polled, answer = .ok none

theorem over_of_invariant {feed : Feed σ} (Keeps : σ → Prop)
    (hpoll : ∀ s, Keeps s → ∃ s', feed.poll s = (.ok none, s') ∧ Keeps s') {s : σ} (h : Keeps s) :
    feed.Over s := by
  intro polled s' hp
  induction hp with
  | nil => exact nofun
  | cons hp _ ih =>
    obtain ⟨next, hnext, hkeeps⟩ := hpoll _ h
    rw [hnext] at hp
    cases hp
    exact List.forall_mem_cons.2 ⟨rfl, ih hkeeps⟩

variable {feed : Feed σ} {s : σ}

theorem Over.poll (h : feed.Over s) : ∃ s', feed.poll s = (.ok none, s') ∧ feed.Over s' := by
  rcases hp : feed.poll s with ⟨answer, s'⟩
  obtain rfl := h _ _ (.single hp) answer List.mem_cons_self
  exact ⟨s', rfl, fun polled last hpolls answer hm =>
    h _ _ (.cons hp hpolls) answer (List.mem_cons_of_mem _ hm)⟩

theorem Over.consume (h : feed.Over s) (step : α → Op → Next α β) (a : α) :
    ∃ s', feed.consume step a s = (.dry a, s') ∧ feed.Over s' := by
  obtain ⟨s', hp, hover⟩ := h.poll
  exact ⟨s', consume_dry hp step a, hover⟩

theorem Over.require (h : feed.Over s) {count : Nat} (hc : 0 < count) :
    ∃ s', feed.require count [] s = (.ok false, [], s') ∧ feed.Over s' := by
  obtain ⟨s', hconsume, hover⟩ := h.consume (require.gather count) []
  refine ⟨s', ?_, hover⟩
  rw [Feed.require, if_neg (by simpa using Nat.ne_of_gt hc), hconsume]

theorem Over.drain (h : feed.Over s) : ∃ s', feed.drain s = (.ok (), [], s') ∧ feed.Over s' := by
  obtain ⟨s', hconsume, hover⟩ := h.consume keepAll []
  refine ⟨s', ?_, hover⟩
  rw [Feed.drain, hconsume]
  rfl

end Feed

/-- No op is left in the layer, and it has not been cancelled. -/
structure Layer.Resting (layer : Layer) : Prop extends layer.Emptied where
  going : ∀ pool, layer.work = .pool pool → pool.cancelled = false

private theorem Pump.shift_over {feed : Feed σ} {s : σ} (h : feed.Over s) {pump : Pump}
    (hcoming : pump.coming = []) : ∃ pump' s', shift feed pump ⟨[], []⟩ s =
      (.ok (), pump', ⟨[], []⟩, s') ∧ pump'.coming = [] ∧ feed.Over s' := by
  obtain ⟨s', hdrain, hover⟩ := h.drain
  by_cases hd : pump.drained = true
  · exact ⟨pump, s, by simp [shift, fill, hd, hcoming], hcoming, h⟩
  · refine ⟨{ pump with coming := [], drained := true }, s', ?_, rfl, hover⟩
    simp [shift, fill, hd, hdrain, hcoming]

namespace Pool

private theorem pump_over {feed : Feed σ} {s : σ} (h : feed.Over s) {pool : Pool}
    (hgoing : pool.cancelled = false) (hchain : pool.chain = []) :
    ∃ pool' s', pump feed pool ⟨[], []⟩ s = (.ok (), pool', ⟨[], []⟩, s') ∧
      pool'.cancelled = false ∧ pool'.chain = [] ∧ feed.Over s' := by
  cases hopen : pool.isOpen with
  | false => exact ⟨pool, s, pump_of_closed feed hgoing hopen _ s, hgoing, hchain, h⟩
  | true =>
    cases hidle : pool.idle with
    | false => exact ⟨pool.looked, s, pump_of_busy feed hgoing hopen hidle _ s, hgoing, hchain, h⟩
    | true =>
      obtain ⟨s', hrequire, hover⟩ := h.require Nat.two_pos
      refine ⟨pool.looked.closed [], s', ?_, hgoing, by simpa [closed, looked] using hchain, hover⟩
      rw [pump_of_idle feed hgoing hopen hidle, serve, hrequire]

private theorem shift_over {feed : Feed σ} {s : σ} (h : feed.Over s) {pool : Pool}
    (hgoing : pool.cancelled = false) (hchain : pool.chain = []) :
    ∃ pool' s', shift feed pool ⟨[], []⟩ s = (.ok (), pool', ⟨[], []⟩, s') ∧
      pool'.cancelled = false ∧ pool'.chain = [] ∧ feed.Over s' := by
  obtain ⟨pool', s', hpump, hend⟩ := pump_over h hgoing hchain
  refine ⟨pool', s', ?_, hend⟩
  rw [shift_eq_take, hpump]
  simp [take, hend.2.1]

end Pool

namespace Layer

theorem Resting.shift {feed : Feed σ} {s : σ} {layer : Layer} (h : layer.Resting)
    (hover : feed.Over s) :
    ∃ after s', layer.shift feed s = (.ok (), after, s') ∧ after.Resting ∧ feed.Over s' := by
  obtain ⟨⟨ready, pending⟩, work⟩ := layer
  obtain rfl : ready = [] := h.ready
  obtain rfl : pending = [] := h.pending
  cases work with
  | coalesce =>
    obtain ⟨s', hconsume, hover⟩ := hover.consume Coalesce.hold []
    refine ⟨_, s', ?_, h, hover⟩
    simp [Layer.shift, Coalesce.shift, Coalesce.settle, hconsume, Buffers.flush]
  | compact =>
    obtain ⟨s', hconsume, hover⟩ := hover.consume Compact.hold []
    refine ⟨_, s', ?_, h, hover⟩
    simp [Layer.shift, Compact.shift, Compact.release, Compact.window, hconsume, Buffers.flush]
  | chunk size =>
    obtain ⟨s', hrequire, hover⟩ := hover.require Nat.one_pos
    refine ⟨_, s', ?_, h, hover⟩
    simp [Layer.shift, Chunk.shift, hrequire]
  | unchunk =>
    obtain ⟨s', hrequire, hover⟩ := hover.require Nat.one_pos
    refine ⟨_, s', ?_, h, hover⟩
    simp [Layer.shift, Unchunk.shift, hrequire]
  | undo =>
    obtain ⟨s', hpoll, hover⟩ := hover.poll
    refine ⟨_, s', ?_, h, hover⟩
    simp [Layer.shift, Pointwise.shift, hpoll]
  | forget =>
    obtain ⟨s', hpoll, hover⟩ := hover.poll
    refine ⟨_, s', ?_, h, hover⟩
    simp [Layer.shift, Pointwise.shift, hpoll]
  | rewind orig =>
    obtain ⟨s', hpoll, hover⟩ := hover.poll
    refine ⟨_, s', ?_, h, hover⟩
    simp [Layer.shift, Pointwise.shift, hpoll]
  | align aligner =>
    obtain ⟨s', hrequire, hover⟩ := hover.require Nat.two_pos
    refine ⟨_, s', ?_, h, hover⟩
    simp [Layer.shift, Align.shift, hrequire, Buffers.flush]
  | pump pump =>
    obtain ⟨pump', s', hshift, hcoming', hover⟩ := Pump.shift_over hover (h.coming pump rfl)
    refine ⟨⟨⟨[], []⟩, .pump pump'⟩, s', by simp [Layer.shift, hshift], ?_, hover⟩
    exact ⟨⟨rfl, rfl, fun _ hw => by cases hw; exact hcoming', fun _ hw => by cases hw⟩,
      fun _ hw => by cases hw⟩
  | pool pool =>
    obtain ⟨pool', s', hshift, hgoing', hchain', hover⟩ :=
      Pool.shift_over hover (h.going pool rfl) (h.chain pool rfl)
    refine ⟨⟨⟨[], []⟩, .pool pool'⟩, s', by simp [Layer.shift, hshift], ?_, hover⟩
    exact ⟨⟨rfl, rfl, fun _ hw => absurd hw (by simp), fun _ hw => by cases hw; exact hchain'⟩,
      fun _ hw => by cases hw; exact hgoing'⟩

theorem Resting.over {feed : Feed σ} {s : σ} {layer : Layer} (h : layer.Resting)
    (hover : feed.Over s) : (Layer.feed feed).Over (layer, s) := by
  refine Feed.over_of_invariant (fun state => state.1.Resting ∧ feed.Over state.2) ?_ ⟨h, hover⟩
  rintro ⟨layer, s⟩ ⟨h, hover⟩
  obtain ⟨after, s', hshift, hafter, hover'⟩ := h.shift hover
  refine ⟨(after, s'), ?_, hafter, hover'⟩
  have hready : layer.buffers.ready = [] := h.ready
  change poll feed (layer, s) = _
  simp [poll, hready, hshift, hafter.ready]

end Layer

namespace Recorded

/-- A stack of which nothing is left has come to its end, if the end of its base is final. -/
theorem Sound.over {base : Base σ} {start : σ} {depth : Nat}
    {record : Recorded σ depth} (hbase : ∀ s, base.Exhausted s → base.Over s)
    (h : Sound base.toFeed start depth record) (hspent : record.Spent) :
    (Stack.feed base depth).Over record.stack := by
  induction depth with
  | zero =>
    have hpolls : base.Polls start record.2 record.1 := h
    exact hbase record.1 (hpolls.exhausted hspent)
  | succ depth ih =>
    obtain ⟨hbelow, hserves, -, -⟩ := h
    have hresting : record.1.1.Resting := ⟨hspent.1, fun pool hw => by
      rw [hw] at hserves
      exact hserves.2.1⟩
    exact hresting.over (ih hbelow hspent.2)

end Recorded

namespace Buffers

theorem eq_empty_of_shiftReady {buffers : Buffers} (h : buffers.shiftReady.2.ready = []) :
    buffers = ⟨[], []⟩ := by
  obtain ⟨ready, - | ⟨op, pending⟩⟩ := buffers
  · exact congrArg (Buffers.mk · []) h
  · simp [shiftReady] at h

end Buffers

theorem Decoder.finished_of_next {decoder after : Decoder} (h : decoder.next = (.ok none, after)) :
    after = .finished := by
  cases decoder with
  | failed => cases h
  | finished => cases h; rfl
  | reading bytes =>
    simp only [next] at h
    split at h <;> cases h
    rfl

theorem Streams.exhausted_of_next {streams after : Streams} (h : streams.next = (.ok [], after)) :
    after.exhausted = true := by
  unfold next at h
  dsimp only at h
  split at h
  · cases h
  split at h
  · cases h
  split at h
  · cases h
    rfl
  · next hnew =>
    refine absurd ?_ hnew
    have hnil := List.append_eq_nil_iff.1 (Except.ok.inj (congrArg Prod.fst h))
    simpa [Script.removal, Script.addition] using hnil

namespace Source

/-- The source has reported its end. -/
def Ended (source : Source) : Prop :=
  source.buffers.ready = [] ∧
    match source.origin with
    | .offered | .list | .replacement => source.buffers.pending = []
    | .streams streams => source.buffers.pending = [] ∧ streams.exhausted = true
    | .encoded decoder => decoder = .finished

private theorem ended_of_shift {before source : Source} (h : before.shift = (.ok (), source))
    (hready : source.buffers.ready = []) : source.Ended := by
  obtain ⟨⟨ready, pending⟩, origin⟩ := before
  have moved (heq : (⟨(Buffers.shiftReady ⟨ready, pending⟩).2, origin⟩ : Source) = source) :
      pending = [] ∧ source = ⟨⟨[], []⟩, origin⟩ := by
    subst heq
    cases Buffers.eq_empty_of_shiftReady hready
    exact ⟨rfl, rfl⟩
  cases origin with
  | offered => exact (moved (Prod.ext_iff.1 h).2).2 ▸ ⟨rfl, rfl⟩
  | list => exact (moved (Prod.ext_iff.1 h).2).2 ▸ ⟨rfl, rfl⟩
  | replacement => exact (moved (Prod.ext_iff.1 h).2).2 ▸ ⟨rfl, rfl⟩
  | encoded decoder =>
    simp only [shift] at h
    split at h <;> cases h
    · next after hnext => exact ⟨hready, Decoder.finished_of_next hnext⟩
    · simp [Buffers.pushReady] at hready
  | streams streams =>
    simp only [shift] at h
    split at h
    · split at h <;> cases h
      next ops after hnext =>
      cases Buffers.eq_empty_of_shiftReady hready
      exact ⟨hready, rfl, Streams.exhausted_of_next hnext⟩
    · next hgone =>
      obtain ⟨rfl, rfl⟩ := moved (Prod.ext_iff.1 h).2
      exact ⟨rfl, rfl, by simpa using hgone⟩

theorem ended_of_poll {before source : Source} (h : before.poll = (.ok none, source)) :
    source.Ended := by
  unfold poll at h
  split at h
  · cases h
  · split at h
    · cases h
    · next after hshift =>
      split at h
      · next hready =>
        cases h
        exact ended_of_shift hshift hready
      · cases h

theorem Ended.poll {source : Source} (h : source.Ended) : source.poll = (.ok none, source) := by
  obtain ⟨⟨ready, pending⟩, origin⟩ := source
  obtain ⟨hready, hend⟩ := h
  obtain rfl : ready = [] := hready
  cases origin with
  | offered | list | replacement =>
    obtain rfl : pending = [] := hend
    rfl
  | encoded decoder =>
    obtain rfl : decoder = .finished := hend
    rfl
  | streams streams =>
    obtain ⟨rfl, hexhausted⟩ : pending = [] ∧ streams.exhausted = true := hend
    simp [Source.poll, shift, hexhausted, Buffers.shiftReady]

theorem over_of_exhausted {source : Source} (h : feed.Exhausted source) : feed.Over source := by
  obtain ⟨before, hpoll⟩ := h
  exact Feed.over_of_invariant Ended (fun source h => ⟨source, h.poll, h⟩) (ended_of_poll hpoll)

end Source

end BytePatch
