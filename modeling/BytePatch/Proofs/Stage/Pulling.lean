import BytePatch.Proofs.Queue.Polls
import BytePatch.Proofs.Stage.Serving

/-! What is pulled from a feed to be compared, whatever the feed answers. Whether it comes to enough,
to the end or to a failure, nothing of what was taken is lost and nothing changes its place. -/
namespace BytePatch

variable {σ : Type}

namespace Feed

/-- Polls are made until two ops are pending, or until there is nothing more, or until one fails. -/
inductive Pulls (pending : List Op) (s : σ) : List Answer → Except Fault Bool × List Op × σ → Prop
  | enough (ops : List Op) {a b rest} : pending ++ ops = a :: b :: rest →
    Pulls pending s (Answer.each ops) (.ok true, a :: b :: rest, s)
  | dry (ops : List Op) : (pending ++ ops).length < 2 →
    Pulls pending s (Answer.each ops ++ [.ok none]) (.ok false, pending ++ ops, s)
  | failed (ops : List Op) {fault} : (pending ++ ops).length < 2 →
    Pulls pending s (Answer.each ops ++ [.error fault]) (.error fault, pending ++ ops, s)

private theorem Pulls.cons {pending : List Op} {answers : List Answer} {s : σ} {op : Op}
    {result : Except Fault Bool × List Op × σ} (h : Pulls (pending ++ [op]) s answers result) :
    Pulls pending s (.ok (some op) :: answers) result := by
  cases h with
  | @enough ops _ _ _ hpending => exact .enough (op :: ops) (by simpa using hpending)
  | @dry ops hshort =>
    rw [List.append_assoc] at hshort ⊢
    exact .dry (op :: ops) hshort
  | @failed ops fault hshort =>
    rw [List.append_assoc] at hshort ⊢
    exact .failed (op :: ops) hshort

theorem pulls_require (feed : Feed σ) (pending : List Op) (s : σ) :
    ∃ answers s', feed.Polls s answers s' ∧
      Pulls pending s' answers (feed.require 2 pending s) := by
  have enough : ∀ a b rest s, ∃ answers s', feed.Polls s answers s' ∧
      Pulls (a :: b :: rest) s' answers (feed.require 2 (a :: b :: rest) s) := by
    intro a b rest s
    rw [require_of_le feed (Nat.le_add_left 2 rest.length)]
    exact ⟨[], s, .nil, .enough [] (List.append_nil _)⟩
  -- Two polls at most until enough is pending.
  have pulled : ∀ pending, pending.length < 2 →
      (∀ op s, ∃ answers s', feed.Polls s answers s' ∧
        Pulls (pending ++ [op]) s' answers (feed.require 2 (pending ++ [op]) s)) →
      ∀ s, ∃ answers s', feed.Polls s answers s' ∧
        Pulls pending s' answers (feed.require 2 pending s) := by
    intro pending hl hnext s
    rw [require_of_lt feed hl]
    have hnone : pending ++ [] = pending := List.append_nil _
    rcases hp : feed.poll s with ⟨fault | (- | op), s'⟩
    · have hfailed : Pulls pending s' [.error fault] (.error fault, pending ++ [], s') :=
        .failed [] (hnone.symm ▸ hl)
      rw [hnone] at hfailed
      exact ⟨_, s', .single hp, hfailed⟩
    · have hdry : Pulls pending s' [.ok none] (.ok false, pending ++ [], s') :=
        .dry [] (hnone.symm ▸ hl)
      rw [hnone] at hdry
      exact ⟨_, s', .single hp, hdry⟩
    · obtain ⟨answers, s'', hpolls, hpulls⟩ := hnext op s'
      exact ⟨_, s'', .cons hp hpolls, hpulls.cons⟩
  match pending with
  | [] =>
    exact pulled [] Nat.two_pos (fun _ s => pulled [_] Nat.one_lt_two (fun _ _ => enough ..) s) s
  | [op] => exact pulled [op] Nat.one_lt_two (fun _ _ => enough ..) s
  | a :: b :: rest => exact enough a b rest s

end Feed

namespace Entry

/-- A way to cut ops that decides about the first op as soon as it has a neighbour. -/
structure Cuts (cutting : List Op → List Entry) : Prop where
  pair : ∀ {a b orig target}, a.pair? b = some (orig, target) → ∀ rest,
    cutting (a :: b :: rest) = .pair orig target :: cutting rest
  single : ∀ {a b}, a.pair? b = none → ∀ rest,
    cutting (a :: b :: rest) = .single a :: cutting (b :: rest)

/-- The first two ops are a pair if they can be, else the first stands alone. -/
def cut : List Op → List Entry
  | [] => []
  | [op] => [.single op]
  | a :: b :: rest =>
    match a.pair? b with
    | some (orig, target) => .pair orig target :: cut rest
    | none => .single a :: cut (b :: rest)

theorem cut_pair {a b : Op} {orig target : Bytes} (h : a.pair? b = some (orig, target))
    (rest : List Op) : cut (a :: b :: rest) = .pair orig target :: cut rest := by
  rw [cut, h]

theorem cut_single {a b : Op} (h : a.pair? b = none) (rest : List Op) :
    cut (a :: b :: rest) = .single a :: cut (b :: rest) := by
  rw [cut, h]

/-- The last op stands alone, but for that it is cut as soon as it has a neighbour. -/
theorem cuts_cut : Cuts cut := ⟨cut_pair, cut_single⟩

theorem cut_of_length_lt {pending : List Op} (h : pending.length < 2) :
    cut pending = pending.map .single := by
  match pending, h with
  | [], _ => rfl
  | [_], _ => rfl

theorem mem_of_pair_mem_cut {orig target : Bytes} {ops : List Op}
    (h : .pair orig target ∈ cut ops) : .delete orig ∈ ops ∧ .insert target ∈ ops := by
  fun_induction cut ops with
  | case1 => cases h
  | case2 op => simp at h
  | case3 a b rest orig' target' hp ih =>
    rcases List.mem_cons.1 h with heq | h
    · cases heq
      cases a <;> cases b <;> simp [Op.pair?] at hp <;> obtain ⟨rfl, rfl⟩ := hp <;> simp
    · exact (ih h).imp (fun hm => List.mem_cons_of_mem _ (List.mem_cons_of_mem _ hm))
        fun hm => List.mem_cons_of_mem _ (List.mem_cons_of_mem _ hm)
  | case4 a b rest hp ih =>
    rcases List.mem_cons.1 h with heq | h
    · cases heq
    · exact (ih h).imp (List.mem_cons_of_mem _) (List.mem_cons_of_mem _)

/-- What a layer that pairs ops as they come makes of its pending ops and of such answers. Where it
is told that there is nothing more, the last op stands alone. -/
def met : List Op → List Answer → List Entry
  | pending, [] => cut pending
  | pending, .ok none :: answers => cut pending ++ met [] answers
  | pending, .ok (some op) :: answers => met (pending ++ [op]) answers
  | pending, .error _ :: answers => met pending answers

theorem met_each (pending ops : List Op) (answers : List Answer) :
    met pending (Answer.each ops ++ answers) = met (pending ++ ops) answers := by
  induction ops generalizing pending with
  | nil => simp
  | cons op ops ih =>
    rw [List.append_cons, ← ih]
    rfl

theorem cuts_met (answers : List Answer) : Cuts (met · answers) where
  pair h rest := by
    induction answers generalizing rest with
    | nil => exact cut_pair h rest
    | cons answer answers ih =>
      rcases answer with fault | - | op
      · exact ih rest
      · exact congrArg (· ++ met [] answers) (cut_pair h rest)
      · exact ih (rest ++ [op])
  single h rest := by
    induction answers generalizing rest with
    | nil => exact cut_single h rest
    | cons answer answers ih =>
      rcases answer with fault | - | op
      · exact ih rest
      · exact congrArg (· ++ met [] answers) (cut_single h rest)
      · exact ih (rest ++ [op])

theorem mem_of_pair_mem_met {orig target : Bytes} {pending : List Op} {answers : List Answer}
    (h : .pair orig target ∈ met pending answers) :
    .insert target ∈ pending ++ Feed.given answers := by
  induction answers generalizing pending with
  | nil => exact List.mem_append_left _ (mem_of_pair_mem_cut h).2
  | cons answer answers ih =>
    rcases answer with fault | - | op
    · exact ih h
    · rcases List.mem_append.1 h with h | h
      · exact List.mem_append_left _ (mem_of_pair_mem_cut h).2
      · exact List.mem_append_right _ (ih h)
    · rw [Feed.given_op, List.append_cons]
      exact ih h

/-- Some entries are settled, and what is still to come is made of the ops that are pending now. -/
def Settles (pending : List Op) (answers : List Answer) (pending' : List Op) : Prop :=
  ∃ settled, ∀ more, met pending (answers ++ more) = settled ++ met pending' more

theorem Settles.refl (pending : List Op) : Settles pending [] pending := ⟨[], fun _ => rfl⟩

theorem Settles.trans {pending pending' pending'' : List Op} {answers answers' : List Answer}
    (h : Settles pending answers pending') (h' : Settles pending' answers' pending'') :
    Settles pending (answers ++ answers') pending'' := by
  obtain ⟨settled, hs⟩ := h
  obtain ⟨settled', hs'⟩ := h'
  refine ⟨settled ++ settled', fun more => ?_⟩
  rw [List.append_assoc, hs, hs', List.append_assoc]

theorem Settles.pulled {pending pending' : List Op} {ops : List Op}
    (h : Settles (pending ++ ops) [] pending') : Settles pending (Answer.each ops) pending' := by
  obtain ⟨settled, hs⟩ := h
  exact ⟨settled, fun more => by rw [met_each, ← hs, List.nil_append]⟩

end Entry

namespace Pool

open Feed (given Clean Dry)

/-- What is true of a pool that has been given work by polls with such answers. -/
structure Pulled (pool : Pool) (pending : List Op) (answers : List Answer) (pool' : Pool)
    (pending' : List Op) : Prop where
  aligner : pool'.aligner = pool.aligner
  workers : pool'.workers = pool.workers
  early : pool'.early = pool.early
  going : pool'.cancelled = false
  isOpen : pool'.isOpen = true
  /-- Nothing is lost, and all is in its place. -/
  entries : ∀ {cutting}, Entry.Cuts cutting → ∀ rest,
    pool'.chain ++ cutting (pending' ++ rest) =
      pool.chain ++ cutting (pending ++ given answers ++ rest)

/-- How giving work ends: nobody is to spare, or the feed has come to its end, or it has failed. -/
inductive PumpEnds (pool : Pool) (ready pending : List Op) (s : σ) :
    List Answer → Except Fault Unit × Pool × Buffers × σ → Prop
  | filled (ops : List Op) : pool.workers ≤ pool.chain.countP Entry.isPair →
    PumpEnds pool ready pending s (Answer.each ops) (.ok (), pool, ⟨ready, pending⟩, s)
  | dry (ops : List Op) : pending.length < 2 →
    PumpEnds pool ready pending s (Answer.each ops ++ [.ok none])
      (.ok (), pool.closed pending, ⟨ready, []⟩, s)
  | failed (ops : List Op) {fault} : pending.length < 2 →
    (pool.chain.countP Entry.isPair < pool.workers ∨ ∃ look, pool.early look = true) →
    PumpEnds pool ready pending s (Answer.each ops ++ [.error fault])
      (.error fault, pool, ⟨ready, pending⟩, s)

private theorem spare_of_idle {pool : Pool} (h : pool.idle = true) :
    pool.looked.chain.countP Entry.isPair < pool.looked.workers ∨
      ∃ look, pool.looked.early look = true := by
  rcases Bool.or_eq_true_iff.1 h with hlt | hearly
  · exact .inl (of_decide_eq_true hlt)
  · exact .inr ⟨pool.looks, hearly⟩

theorem entries_enqueue {cutting : List Op → List Entry} (hcuts : Entry.Cuts cutting)
    (chain : List Entry) (a b : Op) (pending rest : List Op) :
    (enqueue chain a b pending).1 ++ cutting ((enqueue chain a b pending).2 ++ rest) =
      chain ++ cutting (a :: b :: pending ++ rest) := by
  unfold enqueue
  cases hp : a.pair? b with
  | none => simp [hcuts.single hp]
  | some pair => simp [hcuts.pair hp]

private theorem weight_enqueue_lt (chain : List Entry) (a b : Op) (pending : List Op) :
    Script.weight (enqueue chain a b pending).2 < Script.weight (a :: b :: pending) := by
  have ha := a.weight_pos
  have hb := b.weight_pos
  unfold enqueue
  split <;> simp only [Script.weight_cons] <;> omega

private theorem PumpEnds.prepend {pool : Pool} {ready pending : List Op}
    {answers : List Answer} {s : σ} {result : Except Fault Unit × Pool × Buffers × σ}
    (h : PumpEnds pool ready pending s answers result) (before : List Op) :
    PumpEnds pool ready pending s (Answer.each before ++ answers) result := by
  cases h with
  | filled _ hfull =>
    rw [← List.map_append]
    exact .filled _ hfull
  | dry _ hshort =>
    rw [← List.append_assoc, ← List.map_append]
    exact .dry _ hshort
  | failed _ hshort hspare =>
    rw [← List.append_assoc, ← List.map_append]
    exact .failed _ hshort hspare

theorem exists_pumped (feed : Feed σ) {pool : Pool} (hstaffed : 0 < pool.workers)
    (hgoing : pool.cancelled = false) (hopen : pool.isOpen = true) (ready pending : List Op)
    (s : σ) :
    ∃ answers pool' pending' s', feed.Polls s answers s' ∧
      Pulled pool pending answers pool' pending' ∧
      PumpEnds pool' ready pending' s' answers (pump feed pool ⟨ready, pending⟩ s) := by
  induction hn : Script.weight pending + feed.rank s using Nat.strongRecOn
    generalizing pool pending s with
  | _ n ih =>
  by_cases hidle : pool.idle = true
  · rw [pump_of_idle feed hgoing hopen hidle, serve]
    have hrank := feed.rank_require_le 2 pending s
    obtain ⟨answers, s', hpolls, hpulls⟩ := feed.pulls_require pending s
    generalize feed.require 2 pending s = result at hrank hpulls
    cases hpulls with
    | @enough ops a b rest hpending =>
      have hless := weight_enqueue_lt pool.looked.chain a b rest
      obtain ⟨answers', pool', pending', s'', hpolls', hpulled, hpumped⟩ :=
        @ih _ (by dsimp only at hrank; omega)
          { pool.looked with chain := (enqueue pool.looked.chain a b rest).1 } hstaffed hgoing hopen
          (enqueue pool.looked.chain a b rest).2 s' rfl
      refine ⟨_, pool', pending', s'', hpolls.append hpolls', ⟨hpulled.aligner, hpulled.workers,
        hpulled.early, hpulled.going, hpulled.isOpen, fun {cutting} hcuts more => ?_⟩,
        hpumped.prepend ops⟩
      calc pool'.chain ++ cutting (pending' ++ more)
          = (enqueue pool.chain a b rest).1 ++
              cutting ((enqueue pool.chain a b rest).2 ++ given answers' ++ more) :=
            hpulled.entries hcuts more
        _ = pool.chain ++ cutting (a :: b :: rest ++ (given answers' ++ more)) := by
            rw [List.append_assoc, entries_enqueue hcuts]
        _ = pool.chain ++ cutting (pending ++ given (Answer.each ops ++ answers') ++ more) := by
            rw [← hpending, Feed.given_append, Feed.given_each]
            simp only [List.append_assoc]
    | @dry ops hshort =>
      exact ⟨_, pool.looked, _, s', hpolls, ⟨rfl, rfl, rfl, hgoing, hopen, fun _ _ => by simp [looked]⟩,
        .dry _ hshort⟩
    | @failed ops fault hshort =>
      exact ⟨_, pool.looked, _, s', hpolls, ⟨rfl, rfl, rfl, hgoing, hopen, fun _ _ => by simp [looked]⟩,
        .failed _ hshort (spare_of_idle hidle)⟩
  · have hbusy : pool.idle = false := by simpa using hidle
    rw [pump_of_busy feed hgoing hopen hbusy]
    refine ⟨[], pool.looked, pending, s, .nil,
      ⟨rfl, rfl, rfl, hgoing, hopen, fun _ _ => by simp [looked]⟩, .filled [] ?_⟩
    refine Nat.le_of_not_lt fun hlt => hidle ?_
    have hspare : pool.chain.countP Entry.isPair < pool.workers := hlt
    simp [idle, hspare]

/-- Giving the workers work, if nothing fails, leaves the entries as they are that the pool comes to
when its feed is drained. -/
theorem entries_of_pump {feed : Feed σ} {pool pool' : Pool} (hstaffed : 0 < pool.workers)
    (hgoing : pool.cancelled = false) {buffers buffers' : Buffers} {s s' : σ}
    (h : pump feed pool buffers s = (.ok (), pool', buffers', s'))
    (hclosed : pool'.isOpen = false → feed.held s' = []) :
    pool'.chain ++ Entry.cut (buffers'.pending ++ feed.held s') =
      pool.chain ++ Entry.cut (buffers.pending ++ feed.held s) := by
  by_cases hopen : pool.isOpen = true
  · obtain ⟨answers, pulled, pending, s1, hpolls, hpulled, hpumped⟩ :=
      exists_pumped feed hstaffed hgoing hopen buffers.ready buffers.pending s
    generalize hresult : pump feed pool ⟨buffers.ready, buffers.pending⟩ s = result at hpumped
    obtain rfl := hresult.symm.trans h
    cases hpumped with
    | @filled ops hfull =>
      have hentries := hpulled.entries Entry.cuts_cut (feed.held s')
      rwa [Feed.given_each, List.append_assoc, ← hpolls.held_each] at hentries
    | @dry ops hshort =>
      have hentries := hpulled.entries Entry.cuts_cut []
      rw [hclosed rfl, hpolls.held_last rfl]
      rw [Feed.given_append, Feed.given_each, List.append_nil, Entry.cut_of_length_lt hshort]
        at hentries
      simpa [closed, Entry.cut] using hentries
  · rw [pump_of_closed feed hgoing (by simpa using hopen)] at h
    cases h
    rfl

end Pool

end BytePatch
