import BytePatch.Proofs.Threads.Parallel

/-! A layer that compares pairs, above a feed that comes to fail for good. At once, each pair is
compared before there is a failure to report. A pool reads ahead and asks the feed again before it
looks at what it has read, so what is left once a worker is to spare waits for ever. -/
namespace BytePatch

namespace Entry

/-- Ops cut as far as it can be told without knowing what comes next: the last op waits for a
neighbour. -/
def cutAhead : List Op → List Entry
  | [] => []
  | [_] => []
  | a :: b :: rest =>
    match a.pair? b with
    | some (orig, target) => .pair orig target :: cutAhead rest
    | none => .single a :: cutAhead (b :: rest)

/-- The entries in front that are pushed out by those behind them: each has, itself included, as
many pairs behind it as there are workers. -/
def pushedOut (workers : Nat) : List Entry → List Entry
  | [] => []
  | entry :: rest =>
    if workers ≤ (entry :: rest).countP isPair then entry :: pushedOut workers rest else []

theorem cuts_cutAhead : Cuts cutAhead where
  pair h rest := by rw [cutAhead, h]
  single h rest := by rw [cutAhead, h]

theorem cutAhead_of_length_lt {pending : List Op} (h : pending.length < 2) :
    cutAhead pending = [] := by
  match pending, h with
  | [], _ => rfl
  | [_], _ => rfl

theorem cutAhead_prefix_cut (ops : List Op) : cutAhead ops <+: cut ops := by
  fun_induction cutAhead ops with
  | case1 => exact List.nil_prefix
  | case2 => exact List.nil_prefix
  | case3 a b rest orig target hp ih =>
    rw [cut_pair hp]
    exact List.prefix_cons_inj _ |>.2 ih
  | case4 a b rest hp ih =>
    rw [cut_single hp]
    exact List.prefix_cons_inj _ |>.2 ih

theorem pushedOut_cons {workers : Nat} {entry : Entry} {rest : List Entry}
    (h : workers ≤ (entry :: rest).countP isPair) :
    pushedOut workers (entry :: rest) = entry :: pushedOut workers rest := if_pos h

theorem pushedOut_of_lt {workers : Nat} {entries : List Entry}
    (h : entries.countP isPair < workers) : pushedOut workers entries = [] := by
  cases entries with
  | nil => rfl
  | cons entry rest => exact if_neg (Nat.not_le_of_lt h)

end Entry

variable {σ : Type} {below : Feed σ} {aligner : Aligner}

section Align

/-- What a layer that compares at once has still to give, besides what is ready. -/
private def Align.Left (below : Feed σ) (aligner : Aligner) (work : Work) (pending : List Op)
    (s : σ) (out : List Op) (left : Nat) : Prop :=
  ∃ ops, work = .align aligner ∧ below.Fails s ops ∧
    (∀ entry ∈ Entry.cutAhead (pending ++ ops), entry.Made aligner) ∧
    out = (Entry.cutAhead (pending ++ ops)).flatMap (Entry.made aligner) ∧
    left = (Entry.cutAhead (pending ++ ops)).length

private theorem Align.passes_shift {work : Work} {pending : List Op} {s : σ} {out : List Op}
    {left : Nat} (h : Left below aligner work pending s out left) :
    Layer.Passes (Left below aligner) True out left
      (Layer.shift below ⟨⟨[], pending⟩, work⟩ s) := by
  obtain ⟨ops, rfl, hf, hmade, rfl, rfl⟩ := h
  obtain ⟨answers, s', hpolls, hpulls⟩ := below.pulls_require pending s
  obtain ⟨rest, rfl, hrest, hdry, hleft⟩ := hf.polls hpolls
  rw [← List.append_assoc] at hmade ⊢
  generalize hreq : below.require 2 pending s = result at hpulls
  cases hpulls with
  | dry => exact absurd (Feed.dry_singleton.append _) hdry
  | @failed sent fault hshort =>
    obtain rfl : rest = [] := hleft.resolve_left (Feed.not_clean_concat _ _)
    have hgiven : Feed.given (Answer.each sent ++ [.error fault]) = sent := by simp
    rw [hgiven] at hmade ⊢
    rw [Layer.shift_align_failed aligner hreq]
    refine ⟨rfl, fun _ => ?_, _, Nat.le_refl _, [], rfl, hrest, hmade, rfl, rfl⟩
    rw [List.append_nil, Entry.cutAhead_of_length_lt hshort]
    rfl
  | @enough sent a b more hpending =>
    obtain ⟨entry, pending', hhead, hcut⟩ := Entry.exists_head a b more
    rw [Feed.given_each, hpending, List.cons_append, List.cons_append, hcut Entry.cuts_cutAhead] at hmade ⊢
    rw [Layer.shift_align aligner hreq hhead, (hmade entry List.mem_cons_self).compared]
    exact ⟨_, _, rfl, ⟨rest, rfl, hrest, fun _ hm => hmade _ (List.mem_cons_of_mem _ hm), rfl, rfl⟩,
      Nat.lt_succ_self _⟩

end Align

section Pool

/-- The pool still works, with the same workers and the same schedule. -/
private structure Pool.Works (aligner : Aligner) (workers : Nat) (early : Nat → Bool)
    (pool : Pool) : Prop where
  aligner : pool.aligner = aligner
  workers : pool.workers = workers
  early : pool.early = early
  going : pool.cancelled = false
  isOpen : pool.isOpen = true

/-- What a pool has still to give, besides what is ready. -/
private def Pool.Left (below : Feed σ) (aligner : Aligner) (workers : Nat) (early : Nat → Bool)
    (work : Work) (pending : List Op) (s : σ) (out : List Op) (left : Nat) : Prop :=
  ∃ pool ops entries, work = .pool pool ∧ pool.Works aligner workers early ∧ below.Fails s ops ∧
    entries = pool.chain ++ Entry.cutAhead (pending ++ ops) ∧
    (∀ entry ∈ entries, entry.Made aligner) ∧
    out = (Entry.pushedOut workers entries).flatMap (Entry.made aligner) ∧ left = entries.length

private theorem Pool.pump_left {workers : Nat} (hworkers : 0 < workers) {early : Nat → Bool}
    {pool : Pool} (hworks : pool.Works aligner workers early) (pending : List Op) {ops : List Op}
    {s : σ} (hf : below.Fails s ops) :
    ∃ result pool' pending' s' rest, pump below pool ⟨[], pending⟩ s =
        (result, pool', ⟨[], pending'⟩, s') ∧
      pool'.Works aligner workers early ∧ below.Fails s' rest ∧
      pool.chain ++ Entry.cutAhead (pending ++ ops) =
        pool'.chain ++ Entry.cutAhead (pending' ++ rest) ∧
      (result = .ok () ∧ workers ≤ pool'.chain.countP Entry.isPair ∨
        (∃ fault, result = .error fault) ∧ Entry.cutAhead (pending' ++ rest) = [] ∧
          ((∀ look, early look = false) → pool'.chain.countP Entry.isPair < workers)) := by
  obtain ⟨answers, pool', pending', s', hpolls, hpulled, hpumped⟩ :=
    exists_pumped below (hworks.workers ▸ hworkers) hworks.going hworks.isOpen [] pending s
  obtain ⟨rest, rfl, hrest, hdry, hleft⟩ := hf.polls hpolls
  have hworks' : pool'.Works aligner workers early :=
    ⟨hpulled.aligner.trans hworks.aligner, hpulled.workers.trans hworks.workers,
      hpulled.early.trans hworks.early, hpulled.going, hpulled.isOpen⟩
  have hentries := (hpulled.entries Entry.cuts_cutAhead rest).symm
  rw [List.append_assoc] at hentries
  generalize pump below pool _ s = result at hpumped ⊢
  cases hpumped with
  | filled _ hfull =>
    exact ⟨_, pool', pending', s', rest, rfl, hworks', hrest, hentries,
      .inl ⟨rfl, hworks'.workers ▸ hfull⟩⟩
  | dry => exact absurd (Feed.dry_singleton.append _) hdry
  | failed _ hshort hspare =>
    obtain rfl : rest = [] := hleft.resolve_left (Feed.not_clean_concat _ _)
    refine ⟨_, pool', pending', s', [], rfl, hworks', hrest, hentries, .inr ⟨⟨_, rfl⟩, ?_, ?_⟩⟩
    · rw [List.append_nil]
      exact Entry.cutAhead_of_length_lt hshort
    · intro hlazy
      rcases hspare with hlt | ⟨look, hlook⟩
      · exact hworks'.workers ▸ hlt
      · rw [hworks'.early, hlazy look] at hlook
        cases hlook

private theorem Pool.passes_shift {workers : Nat} (hworkers : 0 < workers) {early : Nat → Bool}
    {pool : Pool} (hworks : pool.Works aligner workers early) {pending ops : List Op} {s : σ}
    (hf : below.Fails s ops) {entries : List Entry}
    (hentries : entries = pool.chain ++ Entry.cutAhead (pending ++ ops))
    (hmade : ∀ entry ∈ entries, entry.Made aligner) :
    Layer.Passes (Left below aligner workers early) (∀ look, early look = false)
      ((Entry.pushedOut workers entries).flatMap (Entry.made aligner)) entries.length
      (Layer.shift below ⟨⟨[], pending⟩, .pool pool⟩ s) := by
  induction hn : entries.length using Nat.strongRecOn generalizing entries pool pending ops s with
  | _ n ih =>
  obtain ⟨result, pool', pending', s', rest, hpump, hworks', hrest, heq, hend⟩ :=
    pump_left hworkers hworks pending hf
  rw [heq] at hentries
  rcases hend with ⟨rfl, hfull⟩ | ⟨⟨fault, rfl⟩, hnil, hspare⟩
  · cases hchain : pool'.chain with
    | nil =>
      rw [hchain] at hfull
      exact absurd hworkers (Nat.not_lt_of_le hfull)
    | cons entry chain =>
      rw [hchain, List.cons_append] at hentries
      subst hentries
      have hworks'' : Works aligner workers early { pool' with chain } :=
        ⟨hworks'.aligner, hworks'.workers, hworks'.early, hworks'.going, hworks'.isOpen⟩
      have hlater : ∀ entry ∈ chain ++ Entry.cutAhead (pending' ++ rest), entry.Made aligner :=
        fun _ hm => hmade _ (List.mem_cons_of_mem _ hm)
      have hpushes : workers ≤
          (entry :: (chain ++ Entry.cutAhead (pending' ++ rest))).countP Entry.isPair :=
        hfull.trans (hchain ▸ (List.sublist_append_left _ _).countP_le)
      have hless : (chain ++ Entry.cutAhead (pending' ++ rest)).length < n :=
        hn ▸ Nat.lt_succ_self _
      rw [Entry.pushedOut_cons hpushes, List.flatMap_cons,
        Layer.shift_pool hpump hworks'.aligner hchain, (hmade entry List.mem_cons_self).compared]
      rcases entry.made aligner with - | ⟨op, script⟩
      · -- Nothing is ready, so the refill begins again, with an entry less to come.
        exact (ih _ hless hworks'' hrest rfl hlater rfl).mono hless.le
      · exact ⟨_, _, rfl, ⟨_, rest, _, rfl, hworks'', hrest, rfl, hlater, rfl, rfl⟩, hless⟩
  · rw [Layer.shift_pool_failed hpump]
    refine ⟨rfl, fun hlazy => ?_, n, Nat.le_refl n,
      pool', rest, entries, rfl, hworks', hrest, hentries, hmade, rfl, hn.symm⟩
    rw [hentries, hnil, List.append_nil, Entry.pushedOut_of_lt (hspare hlazy)]
    rfl

end Pool

namespace Queue

variable {queue : Queue} {ops : Script}

/-- At once, all pairs are compared that can be told before the failure. -/
theorem emits_align (h : queue.Fails ops)
    (hmade : ∀ entry ∈ Entry.cutAhead ops, entry.Made aligner) :
    (queue.under (.align aligner)).Emits
      ((Entry.cutAhead ops).flatMap (Entry.made aligner)) :=
  (Layer.emits_of_passes (Align.Left (Stack.feed Source.base queue.depth) aligner)
    (fun _ _ _ _ _ => Align.passes_shift) ⟨ops, rfl, h, hmade, rfl, rfl⟩).2 trivial

/-- A pool gives no more than is pushed out, on any schedule, and just that if each worker keeps its
script until it is asked for. -/
theorem emits_pool (h : queue.Fails ops)
    (hmade : ∀ entry ∈ Entry.cutAhead ops, entry.Made aligner) {workers : Nat}
    (hworkers : 0 < workers) (early : Nat → Bool) :
    (queue.under (.pool (.new aligner workers early))).GivesWithin
        ((Entry.pushedOut workers (Entry.cutAhead ops)).flatMap (Entry.made aligner)) ∧
      ((∀ look, early look = false) → (queue.under (.pool (.new aligner workers early))).Emits
        ((Entry.pushedOut workers (Entry.cutAhead ops)).flatMap (Entry.made aligner))) := by
  refine Layer.emits_of_passes
    (Pool.Left (Stack.feed Source.base queue.depth) aligner workers early) ?_
    ⟨_, ops, _, rfl, ⟨rfl, rfl, rfl, rfl, rfl⟩, h, rfl, hmade, rfl, rfl⟩
  rintro _ pending s _ _ ⟨pool, ops, entries, rfl, hworks, hf, hentries, hmade, rfl, rfl⟩
  exact Pool.passes_shift hworkers hworks hf hentries hmade

private theorem breaks_decoding_nil : (Stack.feed Source.base 0).Breaks (Source.decoding []) []
    (.invalidFormat .missingEnd) (.illegalState .decodeFailed) := Feed.breaks_nil rfl rfl

/-- Three copies, and no end marker. -/
def brokenCopies : Source := .decoding [3, 1, 3, 2, 3, 3]

private theorem fails_brokenCopies :
    (ofSource brokenCopies).Fails [.copy 1, .copy 2, .copy 3] :=
  Feed.Breaks.fails (.cons rfl (.cons rfl (.cons rfl breaks_decoding_nil)))

/-- What is read before a source fails for good. At once all of it comes out, but for a last op that
waits for a neighbour. Of a pool only that comes out which as many pairs as there are workers push
out from behind; no order of the threads and no schedule brings out more, however often the pool is
polled. -/
theorem emits_failing {source : Queue} {ops : Script} (hsource : source.Fails ops) {chunk : Nat}
    (hchunk : chunk + 1 < 2 ^ 32) (method : Method) (divider : Divider) {workers : Nat}
    (hworkers : 1 ≤ workers)
    (hfits : ∀ orig target, .pair orig target ∈ Entry.cut ops →
      Aligner.cells orig target ≤ (chunk + 1) * (chunk + 1)) :
    ∃ aligner, Aligner.forChunk chunk method divider = .ok aligner ∧
      (source.under (.align aligner)).Emits
        ((Entry.cutAhead ops).flatMap (Entry.made aligner)) ∧
      (∀ p, Polling.Reaches (Stack.feed Source.base source.depth)
          (.new aligner workers source.stack) p →
        Feed.given p.answers <+:
          (Entry.pushedOut workers (Entry.cutAhead ops)).flatMap (Entry.made aligner)) ∧
      (∀ early, (source.under (.pool (.new aligner workers early))).GivesWithin
        ((Entry.pushedOut workers (Entry.cutAhead ops)).flatMap (Entry.made aligner))) ∧
      (source.under (.pool (.new aligner workers Pool.lazy))).Emits
        ((Entry.pushedOut workers (Entry.cutAhead ops)).flatMap (Entry.made aligner)) := by
  have hmade : ∀ entry ∈ Entry.cutAhead ops,
      entry.Made ⟨method.strategyWith divider, (chunk + 1) * (chunk + 1)⟩ := fun entry hm =>
    Entry.made_of_fits (Aligner.le_maxCells_of_lt hchunk) hfits entry
      ((Entry.cutAhead_prefix_cut ops).subset hm)
  refine ⟨_, Aligner.forChunk_of_lt hchunk method divider, emits_align hsource hmade,
    fun p hr => ?_, fun early => (emits_pool hsource hmade hworkers early).1,
    (emits_pool hsource hmade hworkers Pool.lazy).2 fun _ => rfl⟩
  obtain ⟨early, s', hpolls⟩ := hr.polls hworkers
  exact (emits_pool hsource hmade hworkers early).1 _ _ hpolls

/-- Two pairs with a copy between them, two more copies, and no end marker. -/
def brokenPairs : Source :=
  .decoding [4, 1, 1, 2, 1, 2, 3, 3, 4, 1, 5, 2, 2, 5, 6, 3, 1, 3, 2]

private theorem fails_brokenPairs : (ofSource brokenPairs).Fails
    [.delete [1], .insert [2], .copy 3, .delete [5], .insert [5, 6], .copy 1, .copy 2] :=
  Feed.Breaks.fails (.cons rfl (.cons rfl (.cons rfl (.cons rfl (.cons rfl (.cons rfl
    (.cons rfl breaks_decoding_nil)))))))

/-- Two workers keep all but the first pair. -/
theorem emits_failing_pairs : ∃ aligner, Aligner.forChunk 4 .edit = .ok aligner ∧
    ((ofSource brokenPairs).under (.align aligner)).Emits
      [.insert [2], .delete [1], .copy 3, .copy 1, .insert [6], .copy 1] ∧
    (∀ p, Polling.Reaches (Stack.feed Source.base 0) (.new aligner 2 brokenPairs) p →
      Feed.given p.answers <+: [.insert [2], .delete [1]]) ∧
    ((ofSource brokenPairs).under (.pool (.new aligner 2 Pool.lazy))).Emits
      [.insert [2], .delete [1]] := by
  have hfits : ∀ orig target, .pair orig target ∈ Entry.cut
      [.delete [1], .insert [2], .copy 3, .delete [5], .insert [5, 6], .copy 1, .copy 2] →
      Aligner.cells orig target ≤ (4 + 1) * (4 + 1) := by
    intro orig target hm
    have hpair : orig = [1] ∧ target = [2] ∨ orig = [5] ∧ target = [5, 6] := by
      simpa [Entry.cut, Op.pair?] using hm
    rcases hpair with ⟨rfl, rfl⟩ | ⟨rfl, rfl⟩ <;> decide
  obtain ⟨aligner, haligner, halign, hthreads, -, hpool⟩ :=
    emits_failing fails_brokenPairs (show 4 + 1 < 2 ^ 32 by decide) .edit .myers
      (Nat.le_add_left 1 1) hfits
  cases haligner
  exact ⟨_, rfl, halign, hthreads, hpool⟩

/-- A single worker keeps everything if there is no pair: nothing comes out, where all but the last
op do if pairs are compared at once. -/
theorem emits_stranded : ∃ aligner, Aligner.forChunk 4 .edit = .ok aligner ∧
    (ofSource brokenCopies).Fails [.copy 1, .copy 2, .copy 3] ∧
    ((ofSource brokenCopies).under (.align aligner)).Emits [.copy 1, .copy 2] ∧
    (∀ early, ¬ ((ofSource brokenCopies).under (.pool (.new aligner 1 early))).Emits
      [.copy 1, .copy 2]) ∧
    ∀ p, Polling.Reaches (Stack.feed Source.base 0) (.new aligner 1 brokenCopies) p →
      Feed.given p.answers = [] := by
  have hmade : ∀ entry ∈ Entry.cutAhead [.copy 1, .copy 2, .copy 3],
      entry.Made ⟨Method.edit.strategyWith .myers, 25⟩ := by
    rintro _ hm orig target rfl
    simp [Entry.cutAhead, Op.pair?] at hm
  have hnone : ∀ early, ((ofSource brokenCopies).under
      (.pool (.new ⟨Method.edit.strategyWith .myers, 25⟩ 1 early))).GivesWithin [] :=
    fun early => (emits_pool fails_brokenCopies hmade Nat.one_pos early).1
  refine ⟨_, rfl, fails_brokenCopies, emits_align fails_brokenCopies hmade, fun early hemits => ?_,
    fun p hr => ?_⟩
  · obtain ⟨answers, s', hpolls, hgiven⟩ := hemits.2
    have hnil := List.prefix_nil.1 (hnone early _ _ hpolls)
    rw [hgiven] at hnil
    cases hnil
  · obtain ⟨early, s', hpolls⟩ := hr.polls Nat.one_pos
    exact List.prefix_nil.1 (hnone early _ _ hpolls)

end Queue

end BytePatch
