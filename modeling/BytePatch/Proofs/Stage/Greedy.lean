import BytePatch.Proofs.Queue.Recovery
import BytePatch.Proofs.Stage.Refills

/-! Ops cut from the left into pairs to compare and single ops. Pair by pair a pool makes of them
what a layer makes that compares at once, as long as no pair fails. Where a pair comes to nothing
the layer has nothing ready, and seems to be at its end; the pool goes on. -/
namespace BytePatch

namespace Entry

/-- What comes out for an entry. -/
def made (aligner : Aligner) : Entry → Script
  | .single op => [op]
  | .pair orig target => aligner.strategy.script orig target

/-- A pair is compared without a failure. -/
def Made (aligner : Aligner) (entry : Entry) : Prop :=
  ∀ orig target, entry = .pair orig target →
    aligner.align orig target = .ok (aligner.strategy.script orig target)

theorem Made.compared {aligner : Aligner} {entry : Entry} (h : entry.Made aligner) :
    entry.compared aligner = .ok (entry.made aligner) := by
  cases entry with
  | single op => rfl
  | pair orig target => exact h orig target rfl

end Entry

namespace Pool

variable {σ : Type} {below : Feed σ}

/-- What a pool has still to hand out, with the failures that are met on the way. -/
def Cuts (below : Feed σ) (pool : Pool) (pending : List Op) (s : σ) (entries : List Entry)
    (faults : List Fault) : Prop :=
  ∃ ops, below.Recovers s (Answer.each ops) faults ∧ pool.Steady pending ops ∧
    (pool.isOpen = false → faults = []) ∧ pool.chain ++ Entry.cut (pending ++ ops) = entries

/-- Giving the workers work changes nothing of what is to come, also if a poll fails. It leaves the
chain empty only if there is no more to come. -/
theorem pump_recovers {pool : Pool} (buffers : Buffers) {s : σ} {entries : List Entry}
    {faults : List Fault} (h : pool.Cuts below buffers.pending s entries faults) :
    ∃ result pool' pending s' later,
      pump below pool buffers s = (result, pool', ⟨buffers.ready, pending⟩, s') ∧
      pool'.Cuts below pending s' entries later ∧ pool'.aligner = pool.aligner ∧
      match result with
      | .ok () => later = faults ∧ (pool'.chain = [] → entries = [] ∧ faults = [])
      | .error fault => faults = fault :: later := by
  obtain ⟨ops, hr, hst, hends, rfl⟩ := h
  by_cases hclosed : pool.isOpen = false
  · refine ⟨.ok (), pool, _, s, faults, pump_of_closed below hst.going hclosed buffers s,
      ⟨ops, hr, hst, hends, rfl⟩, rfl, rfl, fun hchain => ⟨?_, hends hclosed⟩⟩
    obtain ⟨hpending, rfl⟩ := hst.closed hclosed
    rw [hchain, hpending]
    rfl
  obtain ⟨answers, pool', pending, s', hpolls, hpulled, hpumped⟩ :=
    exists_pumped below hst.staffed hst.going (by simpa using hclosed) buffers.ready
      buffers.pending s
  obtain ⟨rest, later, rfl, rfl, hrest, hdry⟩ := hr.polls hpolls
  have hentries := hpulled.entries Entry.cuts_cut rest
  rw [List.append_assoc] at hentries
  have hstaffed : 0 < pool'.workers := hpulled.workers ▸ hst.staffed
  have hopen {P : Prop} (hc : pool'.isOpen = false) : P := absurd hc (by simp [hpulled.isOpen])
  generalize pump below pool _ s = result at hpumped ⊢
  cases hpumped with
  | @filled sent hfull =>
    rw [(Feed.failures_eq_nil_iff _).2 (Feed.clean_each sent)]
    refine ⟨.ok (), pool', pending, s', later, rfl,
      ⟨rest, hrest, ⟨hstaffed, hpulled.going, hopen⟩, hopen, hentries⟩, hpulled.aligner, rfl,
      fun hchain => ?_⟩
    rw [hchain] at hfull
    exact absurd hstaffed (Nat.not_lt_of_le hfull)
  | @dry sent hshort =>
    obtain ⟨rfl, rfl⟩ := hdry (List.mem_append_right _ List.mem_cons_self)
    rw [(Feed.failures_eq_nil_iff _).2 (Feed.clean_each_dry sent)]
    have hcut : (pool'.closed pending).chain ++ Entry.cut ([] ++ []) =
        pool.chain ++ Entry.cut (buffers.pending ++
          (Feed.given (Answer.each sent ++ [.ok none]) ++ [])) := by
      rw [← hentries, List.append_nil pending, Entry.cut_of_length_lt hshort]
      exact List.append_nil _
    refine ⟨.ok (), pool'.closed pending, [], s', [], rfl,
      ⟨[], hrest, ⟨hstaffed, hpulled.going, fun _ => ⟨rfl, rfl⟩⟩, fun _ => rfl, hcut⟩,
      hpulled.aligner, rfl, fun hchain => ⟨?_, rfl⟩⟩
    rw [← hcut, hchain]
    rfl
  | @failed sent fault hshort _ =>
    refine ⟨.error fault, pool', pending, s', later, rfl,
      ⟨rest, hrest, ⟨hstaffed, hpulled.going, hopen⟩, hopen, hentries⟩, hpulled.aligner, ?_⟩
    rw [Feed.failures_append, (Feed.failures_eq_nil_iff _).2 (Feed.clean_each sent)]
    rfl

/-- Above a feed that does not fail, giving the workers work does not fail. -/
theorem pump_entries {pool : Pool} (buffers : Buffers) {s : σ} {ops : List Op}
    (h : below.Delivers s ops) (hst : pool.Steady buffers.pending ops) :
    ∃ pool' pending s' rest,
      pump below pool buffers s = (.ok (), pool', ⟨buffers.ready, pending⟩, s') ∧
      below.Delivers s' rest ∧ pool'.aligner = pool.aligner ∧ pool'.Steady pending rest ∧
      pool'.chain ++ Entry.cut (pending ++ rest) =
        pool.chain ++ Entry.cut (buffers.pending ++ ops) ∧
      (pool'.chain = [] → pool.chain ++ Entry.cut (buffers.pending ++ ops) = []) := by
  obtain ⟨result, pool', pending, s', later, hpump, ⟨rest, hrest, hst', -, hentries⟩, hal, hend⟩ :=
    pump_recovers buffers ⟨ops, h.recovers, hst, fun _ => rfl, rfl⟩
  rcases result with fault | _
  · cases hend
  · obtain ⟨rfl, hdry⟩ := hend
    exact ⟨pool', pending, s', rest, hpump, hrest.delivers, hal, hst', hentries,
      fun hchain => (hdry hchain).1⟩

end Pool

namespace Work

/-- The entries that a layer has taken from the feed and that have not come out yet. -/
private def chain : Work → List Entry
  | .pool state => state.chain
  | _ => []

/-- The layer compares pairs with the aligner, and goes on doing so. -/
private def Compares (aligner : Aligner) (pending rest : Script) (work : Work) : Prop :=
  work = .align aligner ∨
    ∃ state, work = .pool state ∧ state.aligner = aligner ∧ state.Steady pending rest

end Work

namespace Layer.Comparing
variable {σ : Type} (below : Feed σ)

private def entries (work : Work) (pending : List Op) (s : σ) : List Entry :=
  work.chain ++ Entry.cut (pending ++ below.held s)

private structure Sound (aligner : Aligner) (work : Work) (pending : List Op) (s : σ) : Prop where
  delivers : below.Delivers s (below.held s)
  compares : work.Compares aligner pending (below.held s)
  made : ∀ entry ∈ entries below work pending s, entry.Made aligner
  /-- At once each pair has to come to something. -/
  kept : work = .align aligner → ∀ entry ∈ entries below work pending s, entry.made aligner ≠ []

private def rest (aligner : Aligner) (work : Work) (pending : List Op) (s : σ) : Script :=
  (entries below work pending s).flatMap (Entry.made aligner)

/-- What a refill of an empty ready buffer does: entries come out in their order, each made. -/
private abbrev Refills (aligner : Aligner) (work : Work) (pending : List Op) (s : σ) : Prop :=
  Refilled .equality (fun _ => False) (Sound below aligner) (rest below aligner)
    (rest below aligner work pending s) (shift below ⟨⟨[], pending⟩, work⟩ s)

variable {below}

private theorem Sound.refills {aligner : Aligner} {work : Work} {pending : List Op} {s : σ}
    (h : Sound below aligner work pending s) (out : List Entry) {work' : Work}
    {ready pending' ops : List Op} {s' : σ}
    (hshift : shift below ⟨⟨[], pending⟩, work⟩ s = (.ok (), ⟨⟨ready, pending'⟩, work'⟩, s'))
    (hd : below.Delivers s' ops) (hc : work'.Compares aligner pending' ops)
    (hw : work' = .align aligner → work = .align aligner)
    (he : entries below work pending s = out ++ (work'.chain ++ Entry.cut (pending' ++ ops)))
    (hready : ready = out.flatMap (Entry.made aligner))
    (hdry : ready = [] → work'.chain ++ Entry.cut (pending' ++ ops) = []) :
    Refills below aligner work pending s := by
  have hheld := hd.held_eq
  subst hheld hready
  have hleft {entry : Entry} (hmem : entry ∈ entries below work' pending' s') :
      entry ∈ entries below work pending s := by
    rw [he]
    exact List.mem_append_right _ hmem
  rw [Refills, hshift]
  refine ⟨⟨hd, hc, fun entry hmem => h.made entry (hleft hmem),
    fun heq entry hmem => h.kept (hw heq) entry (hleft hmem)⟩, ?_, fun hnil => ?_⟩
  · change rest below aligner work pending s = _
    rw [rest, he, List.flatMap_append, rest, entries]
  · rw [rest, entries, hdry hnil, List.flatMap_nil]

private theorem refills_align {aligner : Aligner} {pending : List Op} {s : σ}
    (h : Sound below aligner (.align aligner) pending s) :
    Refills below aligner (.align aligner) pending s := by
  rcases h.delivers.require_two pending with
    ⟨a, b, more, s', ops, hreq, hd, heq⟩ | ⟨pending', s', hreq, hd, heq, hshort⟩
  · obtain ⟨entry, pending', hhead, hcut⟩ := Entry.exists_head a b more
    have he : entries below (.align aligner) pending s =
        entry :: Entry.cut (pending' ++ ops) := by
      rw [← hcut Entry.cuts_cut, entries, heq]
      rfl
    have hmem : entry ∈ entries below (.align aligner) pending s := he ▸ List.mem_cons_self
    have hshift := shift_align aligner hreq hhead
    rw [(h.made entry hmem).compared] at hshift
    exact h.refills [entry] hshift hd (.inl rfl) id he (List.append_nil _).symm
      fun hnil => absurd hnil (h.kept rfl entry hmem)
  · have hentries : entries below (.align aligner) pending s = pending'.map .single := by
      simp [entries, Work.chain, heq, Entry.cut_of_length_lt hshort]
    refine h.refills (pending'.map .single) (shift_align_short aligner hreq) hd (.inl rfl) id ?_ ?_
      fun _ => rfl
    · simp [hentries, Work.chain, Entry.cut]
    · simp [List.flatMap_map, Entry.made]

private theorem Sound.skips {aligner : Aligner} {pool pool' : Pool} {pending pending' ops : List Op}
    {s s' : σ} (h : Sound below aligner (.pool pool) pending s) {entry : Entry}
    (hnil : entry.made aligner = []) (hd : below.Delivers s' ops)
    (hc : (Work.pool pool').Compares aligner pending' ops)
    (he : entries below (.pool pool) pending s =
      entry :: (pool'.chain ++ Entry.cut (pending' ++ ops))) :
    Sound below aligner (.pool pool') pending' s' ∧
      entries below (.pool pool) pending s =
        entry :: entries below (.pool pool') pending' s' ∧
      rest below aligner (.pool pool) pending s = rest below aligner (.pool pool') pending' s' := by
  have hheld := hd.held_eq
  subst hheld
  refine ⟨⟨hd, hc, fun entry hmem => h.made entry ?_, Work.noConfusion⟩, he, ?_⟩
  · rw [he]
    exact List.mem_cons_of_mem _ hmem
  · rw [rest, he, List.flatMap_cons, hnil]
    rfl

private theorem refills_pool {aligner : Aligner} {pool : Pool} {pending : List Op} {s : σ}
    (h : Sound below aligner (.pool pool) pending s) :
    Refills below aligner (.pool pool) pending s := by
  obtain ⟨_, ⟨⟩, hal, hst⟩ := h.compares.resolve_left Work.noConfusion
  obtain ⟨pool', pending', s', ops, hpump, hd, hal', hst', he, hdry⟩ :=
    Pool.pump_entries ⟨[], pending⟩ h.delivers hst
  have hentries : entries below (.pool pool) pending s =
      pool'.chain ++ Entry.cut (pending' ++ ops) := he.symm
  cases hchain : pool'.chain with
  | nil =>
    exact h.refills [] (shift_pool_dry hpump hchain) hd
      (.inr ⟨pool', rfl, hal'.trans hal, hst'⟩) Work.noConfusion hentries rfl
      fun _ => he.trans (hdry hchain)
  | cons entry chain =>
    rw [hchain] at hentries
    have hc : (Work.pool { pool' with chain }).Compares aligner pending' ops :=
      .inr ⟨_, rfl, hal'.trans hal, hst'.staffed, hst'.going, hst'.closed⟩
    have hmade := h.made entry (hentries ▸ List.mem_cons_self)
    have hshift := shift_pool hpump (hal'.trans hal) hchain
    rw [hmade.compared] at hshift
    cases hscript : entry.made aligner with
    | nil =>
      rw [hscript] at hshift
      obtain ⟨hafter, hcons, hrest⟩ := h.skips hscript hd hc hentries
      -- Nothing is ready, so the refill begins again, with an entry less to come.
      rw [Refills, hrest, hshift]
      exact refills_pool hafter
    | cons op script =>
      rw [hscript] at hshift
      refine h.refills [entry] hshift hd hc Work.noConfusion hentries ?_
        fun hnil => absurd hnil (List.cons_ne_nil op script)
      rw [List.flatMap_singleton, hscript]
termination_by (entries below (.pool pool) pending s).length
decreasing_by
  rw [hcons]
  exact Nat.lt_succ_self _

variable (below) in
/-- The account of a layer that compares pairs. -/
private def account (aligner : Aligner) : Account below .equality fun _ => False where
  Sound := Sound below aligner
  rest := rest below aligner
  refill {work pending s} h _ := by
    have key : Refills below aligner work pending s := by
      rcases h.compares with rfl | ⟨pool, rfl, -⟩
      · exact refills_align h
      · exact refills_pool h
    exact key

end Layer.Comparing

/-- What comes out of a layer that compares pairs. -/
def Script.compared (aligner : Aligner) (ops : Script) : Script :=
  (Entry.cut ops).flatMap (Entry.made aligner)

namespace Queue

private theorem delivers_comparing {queue : Queue} {ops : Script} (h : queue.Delivers ops)
    {aligner : Aligner} (hmade : ∀ entry ∈ Entry.cut ops, entry.Made aligner) {work : Work}
    (hkept : work = .align aligner → ∀ entry ∈ Entry.cut ops, entry.made aligner ≠ [])
    (hchain : work.chain = []) (hc : work.Compares aligner [] ops) :
    (queue.under work).Delivers (ops.compared aligner) := by
  have hheld := Feed.Delivers.held_eq h
  have hentries : Layer.Comparing.entries (Stack.feed Source.base queue.depth) work [] queue.stack =
      Entry.cut ops := by
    rw [Layer.Comparing.entries, hchain, hheld]
    rfl
  have hsound : Layer.Comparing.Sound (Stack.feed Source.base queue.depth) aligner work []
      queue.stack := by
    subst hheld
    exact ⟨h, hc, by rwa [hentries], by rwa [hentries]⟩
  let account := Layer.Comparing.account (Stack.feed Source.base queue.depth) aligner
  have hrest : account.rest work [] queue.stack = ops.compared aligner :=
    congrArg (List.flatMap (Entry.made aligner)) hentries
  obtain ⟨hs, hcontent⟩ := Layer.Account.sound_new (A := account) hsound trivial
  exact Carries.delivers ⟨account.ledger, hs, hcontent.trans hrest⟩

theorem delivers_align {queue : Queue} {ops : Script} (h : queue.Delivers ops) {aligner : Aligner}
    (hmade : ∀ entry ∈ Entry.cut ops, entry.Made aligner)
    (hkept : ∀ entry ∈ Entry.cut ops, entry.made aligner ≠ []) :
    (queue.under (.align aligner)).Delivers (ops.compared aligner) :=
  delivers_comparing h hmade (fun _ => hkept) rfl (.inl rfl)

theorem delivers_pool {queue : Queue} {ops : Script} (h : queue.Delivers ops) {aligner : Aligner}
    (hmade : ∀ entry ∈ Entry.cut ops, entry.Made aligner) {workers : Nat} (hworkers : 0 < workers)
    (early : Nat → Bool) :
    (queue.under (.pool (.new aligner workers early))).Delivers (ops.compared aligner) :=
  delivers_comparing h hmade nofun rfl (.inr ⟨_, rfl, rfl, hworkers, rfl, nofun⟩)

end Queue

end BytePatch
