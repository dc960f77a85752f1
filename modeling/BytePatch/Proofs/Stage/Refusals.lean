import BytePatch.Proofs.Stage.Greedy

/-! Pairs that there is no room for. A pool answers such a pair with its failure and goes on with
what comes after it. A layer that compares at once keeps the pair, and fails with it for ever. -/
namespace BytePatch

namespace Entry

/-- What polls answer for an entry: the ops that come of it, one by one, or else that there is no
room for it, once. -/
def answers (aligner : Aligner) : Entry → List Answer
  | .single op => [.ok (some op)]
  | .pair orig target =>
    if Aligner.cells orig target ≤ aligner.capacity then
      Answer.each (aligner.strategy.script orig target)
    else
      [.error (.capacityExceeded (min (Aligner.cells orig target) Aligner.maxCells)
        aligner.capacity)]

theorem answers_eq {aligner : Aligner} (hcount : aligner.capacity ≤ Aligner.maxCells)
    (entry : Entry) : entry.answers aligner =
      match entry.compared aligner with
      | .ok script => Answer.each script
      | .error fault => [.error fault] := by
  cases entry with
  | single op => rfl
  | pair orig target =>
    rw [answers, compared, Aligner.align, Aligner.checkCapacity, Nat.min_eq_left hcount]
    by_cases hfits : Aligner.cells orig target ≤ aligner.capacity
    · rw [if_pos hfits, if_pos hfits]
    · rw [if_neg hfits, if_neg hfits]

/-- What the polls of a layer that compares at once answer for an entry: where nothing comes of it
they find nothing, once. -/
def answersAtOnce (aligner : Aligner) (entry : Entry) : List Answer :=
  match entry.answers aligner with
  | [] => [.ok none]
  | answers => answers

theorem answersAtOnce_eq {aligner : Aligner} {entry : Entry}
    (h : ∀ orig target, entry = .pair orig target →
      Aligner.cells orig target ≤ aligner.capacity → aligner.strategy.script orig target ≠ []) :
    entry.answersAtOnce aligner = entry.answers aligner := by
  have hsome : entry.answers aligner ≠ [] := by
    cases entry with
    | single op => exact List.cons_ne_nil _ _
    | pair orig target =>
      rw [answers]
      split
      · next hfits => exact fun hnil => h orig target rfl hfits (List.map_eq_nil_iff.1 hnil)
      · exact List.cons_ne_nil _ _
  unfold answersAtOnce
  split
  · next hnil => exact absurd hnil hsome
  · rfl

theorem given_answersAtOnce (aligner : Aligner) (entries : List Entry) :
    Feed.given ((entries.flatMap (answersAtOnce aligner)).takeWhile (·.isOk)) =
      Feed.given ((entries.flatMap (answers aligner)).takeWhile (·.isOk)) := by
  induction entries with
  | nil => rfl
  | cons entry entries ih =>
    rw [List.flatMap_cons, List.flatMap_cons, answersAtOnce]
    split
    · next hnil =>
      rw [hnil]
      exact ih
    · simp only [List.takeWhile_append]
      split
      · rw [Feed.given_append, Feed.given_append, ih]
      · rfl

theorem find?_answersAtOnce (aligner : Aligner) (entries : List Entry) :
    (entries.flatMap (answersAtOnce aligner)).find? (!·.isOk) =
      (entries.flatMap (answers aligner)).find? (!·.isOk) := by
  induction entries with
  | nil => rfl
  | cons entry entries ih =>
    rw [List.flatMap_cons, List.flatMap_cons, answersAtOnce]
    split
    · next hnil =>
      rw [hnil]
      exact ih
    · rw [List.find?_append, List.find?_append, ih]

end Entry

namespace Script

/-- The answers for all that ops are cut into. -/
def answers (aligner : Aligner) (ops : Script) : List Answer :=
  (Entry.cut ops).flatMap (Entry.answers aligner)

/-- The answers at once, as if each failure were passed over. -/
def answersAtOnce (aligner : Aligner) (ops : Script) : List Answer :=
  (Entry.cut ops).flatMap (Entry.answersAtOnce aligner)

theorem answersAtOnce_of_length_lt (aligner : Aligner) {ops : List Op} (h : ops.length < 2) :
    answersAtOnce aligner ops = Answer.each ops := by
  rw [answersAtOnce, Entry.cut_of_length_lt h, List.flatMap_map]
  exact List.map_eq_flatMap.symm

end Script

section Pool
variable {σ : Type} {below : Feed σ} {aligner : Aligner}

/-- The answers that a pool has still to give, besides what is ready. -/
private def Pool.Owes (below : Feed σ) (aligner : Aligner) (work : Work) (pending : List Op) (s : σ)
    (answers : List Answer) : Prop :=
  ∃ pool ops, work = .pool pool ∧ pool.aligner = aligner ∧ below.Delivers s ops ∧
    pool.Steady pending ops ∧
    answers = (pool.chain ++ Entry.cut (pending ++ ops)).flatMap (Entry.answers aligner)

private theorem Pool.owes_shift (hcount : aligner.capacity ≤ Aligner.maxCells) {pool : Pool}
    {pending ops : List Op} {s : σ} (hal : pool.aligner = aligner) (hd : below.Delivers s ops)
    (hst : pool.Steady pending ops) :
    Layer.Brings (Owes below aligner) (.ok none)
      ((pool.chain ++ Entry.cut (pending ++ ops)).flatMap (Entry.answers aligner))
      (Layer.shift below ⟨⟨[], pending⟩, .pool pool⟩ s) := by
  induction hn : (pool.chain ++ Entry.cut (pending ++ ops)).length using Nat.strongRecOn
    generalizing pool pending ops s with
  | _ n ih =>
  obtain ⟨pool', pending', s', rest, hpump, hrest, hal', hst', he, hdry⟩ :=
    pump_entries ⟨[], pending⟩ hd hst
  rw [← he]
  rw [← he] at hn
  cases hchain : pool'.chain with
  | nil =>
    have hnone := he.trans (hdry hchain)
    rw [hchain] at hnone
    rw [Layer.shift_pool_dry hpump hchain, hnone]
    refine ⟨rfl, pool', rest, rfl, hal'.trans hal, hrest, hst', ?_⟩
    rw [hchain, hnone]
    rfl
  | cons entry chain =>
    have howes : Owes below aligner (.pool { pool' with chain }) pending' s'
        ((chain ++ Entry.cut (pending' ++ rest)).flatMap (Entry.answers aligner)) :=
      ⟨_, rest, rfl, hal'.trans hal, hrest, ⟨hst'.staffed, hst'.going, hst'.closed⟩, rfl⟩
    rw [List.cons_append, List.flatMap_cons, Entry.answers_eq hcount,
      Layer.shift_pool hpump (hal'.trans hal) hchain]
    rcases entry.compared aligner with fault | (- | ⟨op, script⟩)
    · exact ⟨rfl, rfl, howes⟩
    · -- Nothing is ready, so the refill begins again, with an entry less to come.
      refine ih _ ?_ (hal'.trans hal) hrest ⟨hst'.staffed, hst'.going, hst'.closed⟩ rfl
      rw [← hn, hchain]
      exact Nat.lt_succ_self _
    · exact ⟨_, rfl, howes⟩

end Pool

section Align
variable {σ : Type} {below : Feed σ} {aligner : Aligner}

private theorem takeWhile_each (ops : List Op) (answers : List Answer) :
    (Answer.each ops ++ answers).takeWhile (·.isOk) =
      Answer.each ops ++ answers.takeWhile (·.isOk) := by
  apply List.takeWhile_append_of_pos
  intro answer hm
  obtain ⟨op, -, rfl⟩ := List.mem_map.1 hm
  rfl

private theorem find?_each (ops : List Op) (answers : List Answer) :
    (Answer.each ops ++ answers).find? (!·.isOk) = answers.find? (!·.isOk) := by
  induction ops with
  | nil => rfl
  | cons op ops ih => exact ih

/-- The answers of a layer that compares at once, up to the first failure, which is the last of
them. -/
private def Align.Owes (below : Feed σ) (aligner : Aligner) (last : Answer) (work : Work)
    (pending : List Op) (s : σ) (answers : List Answer) : Prop :=
  ∃ ops, work = .align aligner ∧ below.Delivers s ops ∧
    answers = (Script.answersAtOnce aligner (pending ++ ops)).takeWhile (·.isOk) ∧
    last = ((Script.answersAtOnce aligner (pending ++ ops)).find? (!·.isOk)).getD (.ok none)

private theorem Align.owes_shift (hcount : aligner.capacity ≤ Aligner.maxCells) {last : Answer}
    {work : Work} {pending : List Op} {s : σ} {answers : List Answer}
    (h : Owes below aligner last work pending s answers) :
    Layer.Brings (Owes below aligner last) last answers
      (Layer.shift below ⟨⟨[], pending⟩, work⟩ s) := by
  obtain ⟨ops, rfl, hd, rfl, rfl⟩ := h
  rcases hd.require_two pending with
    ⟨a, b, more, s', rest, hreq, hrest, heq⟩ | ⟨pending', s', hreq, hrest, heq, hshort⟩
  · obtain ⟨entry, pending', hhead, hcut⟩ := Entry.exists_head a b more
    have hanswers : Script.answersAtOnce aligner (a :: b :: (more ++ rest)) =
        entry.answersAtOnce aligner ++ Script.answersAtOnce aligner (pending' ++ rest) := by
      rw [Script.answersAtOnce, hcut Entry.cuts_cut]
      rfl
    rw [Entry.answersAtOnce, Entry.answers_eq hcount] at hanswers
    rw [Layer.shift_align aligner hreq hhead, heq]
    generalize entry.compared aligner = reply at hanswers ⊢
    rcases reply with fault | (- | ⟨op, script⟩)
    · refine ⟨rfl, by rw [hanswers]; rfl, rest, rfl, hrest, ?_, rfl⟩
      rw [List.cons_append, List.cons_append, hanswers]
      rfl
    · rw [hanswers]
      exact ⟨rfl, rest, rfl, hrest, rfl, rfl⟩
    · have hgiven : Script.answersAtOnce aligner (a :: b :: (more ++ rest)) =
          Answer.each (op :: script) ++ Script.answersAtOnce aligner (pending' ++ rest) := hanswers
      rw [hgiven, takeWhile_each, find?_each]
      exact ⟨_, rfl, rest, rfl, hrest, rfl, rfl⟩
  · rw [Layer.shift_align_short aligner hreq, heq, Script.answersAtOnce_of_length_lt aligner hshort,
      ← List.append_nil (Answer.each _), takeWhile_each, find?_each]
    cases pending' with
    | nil => exact ⟨rfl, [], rfl, hrest, rfl, rfl⟩
    | cons op pending' => exact ⟨[], rfl, [], rfl, hrest, rfl, rfl⟩

private theorem Align.shift_cases (aligner : Aligner) (pending : List Op) {ops : List Op} {s : σ}
    (hd : below.Delivers s ops) : ∃ pending' s' rest, below.Delivers s' rest ∧
      ((∃ ready, Layer.shift below ⟨⟨[], pending⟩, .align aligner⟩ s =
          (.ok (), ⟨⟨ready, pending'⟩, .align aligner⟩, s')) ∨
        ∃ fault, Layer.shift below ⟨⟨[], pending⟩, .align aligner⟩ s =
            (.error fault, ⟨⟨[], pending'⟩, .align aligner⟩, s') ∧
          Layer.shift below ⟨⟨[], pending'⟩, .align aligner⟩ s' =
            (.error fault, ⟨⟨[], pending'⟩, .align aligner⟩, s')) := by
  rcases hd.require_two pending with
    ⟨a, b, more, s', rest, hreq, hrest, -⟩ | ⟨pending', s', hreq, hrest, -, -⟩
  · obtain ⟨entry, pending', hhead, -⟩ := Entry.exists_head a b more
    have henough : 2 ≤ (a :: b :: more).length := Nat.le_add_left 2 more.length
    have hagain := below.require_of_le henough s'
    rw [Layer.shift_align aligner hreq hhead]
    cases hcompared : entry.compared aligner with
    | ok script => exact ⟨pending', s', rest, hrest, .inl ⟨script, rfl⟩⟩
    | error fault =>
      refine ⟨a :: b :: more, s', rest, hrest, .inr ⟨fault, rfl, ?_⟩⟩
      rw [Layer.shift_align aligner hagain hhead, hcompared]
  · exact ⟨[], s', [], hrest, .inl ⟨pending', Layer.shift_align_short aligner hreq⟩⟩

/-- The layer compares at once, and what is below it does not fail. -/
private def Align.Going (below : Feed σ) (aligner : Aligner) (state : Layer × σ) : Prop :=
  state.1.work = .align aligner ∧ ∃ ops, below.Delivers state.2 ops

private theorem Align.going_poll (state : Layer × σ) (h : Going below aligner state) :
    Going below aligner (Layer.poll below state).2 ∧ ∀ fault state',
      Layer.poll below state = (.error fault, state') →
        Layer.poll below state' = (.error fault, state') := by
  obtain ⟨⟨⟨ready, pending⟩, work⟩, s⟩ := state
  obtain ⟨rfl, ops, hd⟩ := h
  have hgiven {answer : Answer} {state' : Layer × σ} (hok : ∃ op?, answer = .ok op?)
      {fault : Fault} {state'' : Layer × σ} (heq : (answer, state') = (.error fault, state'')) :
      Layer.poll below state'' = (.error fault, state'') := by
    obtain ⟨op?, rfl⟩ := hok
    cases heq
  cases ready with
  | cons op ready => exact ⟨⟨rfl, ops, hd⟩, fun _ _ heq => hgiven ⟨some op, rfl⟩ heq⟩
  | nil =>
    obtain ⟨pending', s', rest, hrest, ⟨ready, hshift⟩ | ⟨fault, hshift, hagain⟩⟩ :=
      shift_cases aligner pending hd
    · cases ready with
      | nil =>
        have hpoll : Layer.poll below (⟨⟨[], pending⟩, .align aligner⟩, s) =
            (.ok none, ⟨⟨[], pending'⟩, .align aligner⟩, s') := by simp [Layer.poll, hshift]
        rw [hpoll]
        exact ⟨⟨rfl, rest, hrest⟩, fun _ _ heq => hgiven ⟨none, rfl⟩ heq⟩
      | cons op ready =>
        have hpoll : Layer.poll below (⟨⟨[], pending⟩, .align aligner⟩, s) =
            (.ok (some op), ⟨⟨ready, pending'⟩, .align aligner⟩, s') := by
          simp [Layer.poll, hshift]
        rw [hpoll]
        exact ⟨⟨rfl, rest, hrest⟩, fun _ _ heq => hgiven ⟨some op, rfl⟩ heq⟩
    · have hpoll : Layer.poll below (⟨⟨[], pending⟩, .align aligner⟩, s) =
          (.error fault, ⟨⟨[], pending'⟩, .align aligner⟩, s') := by simp [Layer.poll, hshift]
      rw [hpoll]
      refine ⟨⟨rfl, rest, hrest⟩, fun fault' state' heq => ?_⟩
      cases heq
      simp [Layer.poll, hagain]

end Align

namespace Queue

variable {queue : Queue} {ops : Script} {aligner : Aligner}

/-- Of a pool every entry has its answers, whatever became of those before it, and however the pool
is served. -/
theorem answers_pool (h : queue.Delivers ops) (hcount : aligner.capacity ≤ Aligner.maxCells)
    {workers : Nat} (hworkers : 0 < workers) (early : Nat → Bool) :
    (queue.under (.pool (.new aligner workers early))).Answers (ops.answers aligner)
      (.ok none) := by
  refine Layer.answers_of_brings (Pool.Owes (Stack.feed Source.base queue.depth) aligner) ?_
    ⟨_, ops, rfl, rfl, h, ⟨hworkers, rfl, nofun⟩, rfl⟩
  rintro _ pending s _ ⟨pool, ops, rfl, hal, hd, hst, rfl⟩
  exact Pool.owes_shift hcount hal hd hst

/-- At once, the entries have their answers up to the first failure, which is repeated for ever. -/
theorem answers_align (h : queue.Delivers ops) (hcount : aligner.capacity ≤ Aligner.maxCells) :
    (queue.under (.align aligner)).Answers
      ((ops.answersAtOnce aligner).takeWhile (·.isOk))
      (((ops.answersAtOnce aligner).find? (!·.isOk)).getD (.ok none)) :=
  Layer.answers_of_brings (Align.Owes (Stack.feed Source.base queue.depth) aligner _)
    (fun _ _ _ _ => Align.owes_shift hcount) ⟨ops, rfl, h, rfl, rfl⟩

theorem sticks_align (h : queue.Delivers ops) (aligner : Aligner) :
    (queue.under (.align aligner)).Sticks := by
  intro count
  have hgoing := (Layer.feed (Stack.feed Source.base queue.depth)).after_of_invariant
    (Align.Going (Stack.feed Source.base queue.depth) aligner)
    (fun state hstate => (Align.going_poll state hstate).1)
    (⟨rfl, ops, h⟩ : Align.Going _ aligner (Layer.new (.align aligner), queue.stack)) count
  exact (Align.going_poll _ hgoing).2

end Queue

end BytePatch
