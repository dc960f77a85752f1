import BytePatch.Proofs.Queue.Ledger

/-! Polls and what each of them answered, whether or not it failed. Whoever consumes a feed has made
such polls, and what is in its hands comes from the ops among their answers. -/
namespace BytePatch

/-- The op that an answer gives. -/
def Answer.op? : Answer → Option Op
  | .ok op? => op?
  | .error _ => none

/-- The answers that give ops one by one. -/
abbrev Answer.each (ops : List Op) : List Answer := ops.map fun op => .ok (some op)

theorem Script.totalRun_le_weight (ops : Script) : ops.totalRun ≤ weight ops := by
  induction ops with
  | nil => exact Nat.le_refl _
  | cons op ops ih => exact Nat.add_le_add (Nat.le_max_right 1 op.run) ih

namespace Feed
variable {σ α β : Type}

/-- Polls one after another, with what each of them answered. -/
inductive Polls (feed : Feed σ) : σ → List Answer → σ → Prop
  | nil {s} : Polls feed s [] s
  | cons {s s' s'' answer answers} : feed.poll s = (answer, s') → Polls feed s' answers s'' →
      Polls feed s (answer :: answers) s''

/-- The ops among the answers. -/
def given (answers : List Answer) : Script := answers.filterMap Answer.op?

/-- None of the polls failed. -/
def Clean (answers : List Answer) : Prop := ∀ answer ∈ answers, ∃ op?, answer = .ok op?

/-- The last one of the polls found nothing. -/
def Dry (answers : List Answer) : Prop := answers.getLast? = some (.ok none)

/-- The last poll of the feed has found nothing. -/
def Exhausted (feed : Feed σ) (s : σ) : Prop := ∃ before, feed.poll before = (.ok none, s)

/-- Every op that the feed gives from here on, however often it is polled, is such an op. -/
def Gives (feed : Feed σ) (P : Op → Prop) (s : σ) : Prop :=
  ∀ answers s', feed.Polls s answers s' → ∀ op ∈ given answers, P op

@[simp] theorem given_nil : given [] = [] := rfl

@[simp] theorem given_append (xs ys : List Answer) : given (xs ++ ys) = given xs ++ given ys :=
  List.filterMap_append

@[simp] theorem given_op (op : Op) (answers : List Answer) :
    given (.ok (some op) :: answers) = op :: given answers := rfl

@[simp] theorem given_none (answers : List Answer) : given (.ok none :: answers) = given answers := rfl

@[simp] theorem given_error (fault : Fault) (answers : List Answer) :
    given (.error fault :: answers) = given answers := rfl

theorem clean_nil : Clean [] := nofun

theorem clean_cons {op? : Option Op} {answers : List Answer} (h : Clean answers) :
    Clean (.ok op? :: answers) := by
  intro answer hm
  rcases List.mem_cons.1 hm with rfl | hm
  · exact ⟨op?, rfl⟩
  · exact h answer hm

theorem Clean.append {xs ys : List Answer} (hx : Clean xs) (hy : Clean ys) : Clean (xs ++ ys) := by
  intro answer hm
  rcases List.mem_append.1 hm with hm | hm
  · exact hx answer hm
  · exact hy answer hm

@[simp] theorem given_each (ops : List Op) : given (Answer.each ops) = ops := by
  induction ops with
  | nil => rfl
  | cons op ops ih => exact congrArg (op :: ·) ih

theorem clean_each (ops : List Op) : Clean (Answer.each ops) :=
  List.forall_mem_map.2 fun op _ => ⟨some op, rfl⟩

theorem clean_each_dry (ops : List Op) : Clean (Answer.each ops ++ [.ok none]) :=
  (clean_each ops).append (clean_cons clean_nil)

theorem not_clean_concat (answers : List Answer) (fault : Fault) :
    ¬ Clean (answers ++ [.error fault]) := by
  intro h
  obtain ⟨op?, herror⟩ := h (.error fault) (List.mem_append_right answers List.mem_cons_self)
  cases herror

theorem dry_singleton : Dry [.ok none] := rfl

theorem not_dry_nil : ¬ Dry [] := nofun

theorem Dry.append (xs : List Answer) {ys : List Answer} (h : Dry ys) : Dry (xs ++ ys) := by
  rw [Dry, List.getLast?_append, h]
  rfl

variable {feed : Feed σ}

theorem Polls.single {s s' : σ} {answer : Answer} (h : feed.poll s = (answer, s')) :
    feed.Polls s [answer] s' := .cons h .nil

theorem Polls.append {s s' s'' : σ} {xs ys : List Answer} (hx : feed.Polls s xs s')
    (hy : feed.Polls s' ys s'') : feed.Polls s (xs ++ ys) s'' := by
  induction hx with
  | nil => exact hy
  | cons hp _ ih => exact .cons hp (ih hy)

theorem Polls.held_each {s s' : σ} {ops : List Op} (h : feed.Polls s (Answer.each ops) s') :
    feed.held s = ops ++ feed.held s' := by
  induction ops generalizing s with
  | nil =>
    cases h
    rfl
  | cons op ops ih =>
    cases h with
    | cons hp hrest => rw [held_op hp, ih hrest, List.cons_append]

theorem Polls.held_last {s s' : σ} {ops : List Op} {last : Answer} (hlast : last.op? = none)
    (h : feed.Polls s (Answer.each ops ++ [last]) s') : feed.held s = ops := by
  induction ops generalizing s with
  | nil =>
    cases h with
    | cons hp _ =>
      rcases last with fault | - | op
      · exact held_failed hp
      · exact held_dry hp
      · cases hlast
  | cons op ops ih =>
    cases h with
    | cons hp hrest => rw [held_op hp, ih hrest]

theorem Polls.exhausted {s s' : σ} {answers : List Answer} (h : feed.Polls s answers s')
    (hdry : Dry answers) : feed.Exhausted s' := by
  induction h with
  | nil => exact absurd hdry not_dry_nil
  | @cons s s' s'' answer answers hp hrest ih =>
    cases hrest with
    | nil =>
      cases Option.some.inj hdry
      exact ⟨s, hp⟩
    | cons => exact ih hdry

/-- The runs that the feed gives from here on, however often it is polled, sum to less than that. -/
def GivesBelow (feed : Feed σ) (bound : Nat) (s : σ) : Prop :=
  ∀ answers s', feed.Polls s answers s' → (given answers).totalRun < bound

theorem rank_polls {s s' : σ} {answers : List Answer} (h : feed.Polls s answers s') :
    Script.weight (given answers) + feed.rank s' ≤ feed.rank s := by
  induction h with
  | nil => simp
  | @cons s s' s'' answer answers hp _ ih =>
    have hr := feed.rank_poll s
    rw [hp] at hr
    rcases answer with fault | - | op <;> simp [Answer.weight] at hr ⊢ <;> omega

theorem givesBelow_of_rank {bound : Nat} {s : σ} (h : feed.rank s < bound) :
    feed.GivesBelow bound s := by
  intro answers s' hp
  have hrank := rank_polls hp
  exact Nat.lt_of_le_of_lt (Script.totalRun_le_weight _) (by omega)

theorem Gives.imp {P Q : Op → Prop} {s : σ} (h : feed.Gives P s) (hpq : ∀ op, P op → Q op) :
    feed.Gives Q s :=
  fun answers s' hp op hop => hpq op (h answers s' hp op hop)

theorem gives_of_invariant {P : Op → Prop} (Keeps : σ → Prop)
    (hpoll : ∀ s, Keeps s → (∀ op, (feed.poll s).1 = .ok (some op) → P op) ∧ Keeps (feed.poll s).2)
    {s : σ} (h : Keeps s) : feed.Gives P s := by
  intro answers s' hp
  induction hp with
  | nil => exact nofun
  | @cons s s' s'' answer answers hp _ ih =>
    have hs := hpoll s h
    rw [hp] at hs
    intro op hop
    rcases answer with fault | - | first
    · exact ih hs.2 op hop
    · exact ih hs.2 op hop
    · rcases List.mem_cons.1 hop with rfl | hop
      · exact hs.1 op rfl
      · exact ih hs.2 op hop

/-- Answers one after another, and then nothing more. -/
def answering : Feed (List Answer) where
  poll
    | [] => (.ok none, [])
    | answer :: answers => (answer, answers)
  rank answers := sumOf Answer.weight answers
  rank_poll answers := by
    cases answers with
    | nil => exact Nat.le_refl _
    | cons answer answers => exact Nat.le_of_eq (Nat.add_comm _ _)

theorem gives_answering {P : Op → Prop} {start : List Answer} (h : ∀ op ∈ given start, P op) :
    answering.Gives P start := by
  refine gives_of_invariant (fun answers => ∀ op ∈ given answers, P op) (fun answers h => ?_) h
  rcases answers with _ | ⟨fault | - | first, answers⟩
  · exact ⟨nofun, h⟩
  · exact ⟨nofun, h⟩
  · exact ⟨nofun, h⟩
  · exact ⟨fun op hop => h op (by cases hop; exact List.mem_cons_self),
      fun op hop => h op (List.mem_cons_of_mem _ hop)⟩

/-- What a consumer that started from a state has made of the ops it was answered, by how it ended:
`kept` and `out` read them off its states and results. -/
def Consumed (R : Refinement) (kept : α → Script) (out : β → Script) (More : α → Prop)
    (Done : β → Prop) (a : α) (answers : List Answer) : Outcome α β → Prop
  | .done b => Clean answers ∧ Done b ∧ R.Rel (kept a ++ given answers) (out b)
  | .dry a' => Clean answers ∧ Dry answers ∧ More a' ∧ R.Rel (kept a ++ given answers) (kept a')
  | .failed _ a' => More a' ∧ R.Rel (kept a ++ given answers) (kept a')

theorem polls_consume (feed : Feed σ) (R : Refinement) (step : α → Op → Next α β) (kept : α → Script)
    (out : β → Script) (More : α → Prop) (Done : β → Prop)
    (hstep : ∀ a op, More a →
      (step a op).Holds (fun a' => More a' ∧ R.Rel (kept a ++ [op]) (kept a'))
        (fun b => Done b ∧ R.Rel (kept a ++ [op]) (out b)))
    {a : α} (s : σ) (ha : More a) :
    ∃ answers, feed.Polls s answers (feed.consume step a s).2 ∧
      Consumed R kept out More Done a answers (feed.consume step a s).1 := by
  induction a, s using Feed.consume.induct feed step with
  | case1 a s fault s' hp =>
    rw [consume_failed hp]
    exact ⟨_, .single hp, ha, by simpa using R.refl _⟩
  | case2 a s s' hp =>
    rw [consume_dry hp]
    exact ⟨_, .single hp, clean_cons clean_nil, dry_singleton, ha, by simpa using R.refl _⟩
  | case3 a s op s' hp b hb =>
    rw [consume_done hp hb]
    have hn := hstep a op ha
    rw [hb] at hn
    exact ⟨_, .single hp, clean_cons clean_nil, hn⟩
  | case4 a s op s' hp a' hm ih =>
    rw [consume_more hp hm]
    have hn := hstep a op ha
    rw [hm] at hn
    obtain ⟨ha', hr⟩ := hn
    obtain ⟨answers, hpolls, hend⟩ := ih ha'
    refine ⟨.ok (some op) :: answers, .cons hp hpolls, ?_⟩
    have hr' : R.Rel (kept a ++ given (.ok (some op) :: answers)) (kept a' ++ given answers) := by
      simpa using R.append hr (R.refl (given answers))
    generalize (feed.consume step a' s').1 = outcome at hend
    cases outcome with
    | done b =>
      obtain ⟨hclean, hdone, hb⟩ := hend
      exact ⟨clean_cons hclean, hdone, R.trans hr' hb⟩
    | dry last =>
      obtain ⟨hclean, hdry, hmore, hl⟩ := hend
      exact ⟨clean_cons hclean, hdry.append [_], hmore, R.trans hr' hl⟩
    | failed fault last => exact ⟨hend.1, R.trans hr' hend.2⟩

/-- Whatever is polled for is pending afterwards, whether or not it is enough. -/
theorem polls_require (feed : Feed σ) (count : Nat) (pending : List Op) (s : σ) :
    ∃ answers, feed.Polls s answers (feed.require count pending s).2.2 ∧
      (feed.require count pending s).2.1 = pending ++ given answers ∧
      match (feed.require count pending s).1 with
      | .error _ => True
      | .ok true => Clean answers ∧ count ≤ (feed.require count pending s).2.1.length
      | .ok false => Clean answers ∧ Dry answers ∧
        (feed.require count pending s).2.1.length < count := by
  unfold require
  by_cases hc : count ≤ pending.length
  · rw [if_pos hc]
    exact ⟨[], .nil, by simp, clean_nil, hc⟩
  rw [if_neg hc]
  obtain ⟨answers, hpolls, hend⟩ := feed.polls_consume .equality (require.gather count) id id
    (fun pending => pending.length < count) (fun pending => count ≤ pending.length)
    (fun a op _ => by
      unfold require.gather
      by_cases h : count ≤ (a ++ [op]).length
      · simp only [if_pos h]; exact ⟨h, rfl⟩
      · simp only [if_neg h]; exact ⟨Nat.lt_of_not_le h, rfl⟩)
    s (Nat.lt_of_not_le hc)
  refine ⟨answers, ?_⟩
  generalize feed.consume (require.gather count) pending s = result at hpolls hend
  obtain ⟨outcome, s'⟩ := result
  cases outcome with
  | done pending' => exact ⟨hpolls, hend.2.2.symm, hend.1, hend.2.1⟩
  | dry pending' => exact ⟨hpolls, hend.2.2.2.symm, hend.1, hend.2.1, hend.2.2.1⟩
  | failed fault pending' => exact ⟨hpolls, hend.2.symm, trivial⟩

theorem polls_drain (feed : Feed σ) (s : σ) :
    ∃ answers, feed.Polls s answers (feed.drain s).2.2 ∧ (feed.drain s).2.1 = given answers ∧
      ((feed.drain s).1 = .ok () → Clean answers ∧ Dry answers) := by
  obtain ⟨answers, hpolls, hend⟩ := feed.polls_consume .equality keepAll List.reverse
    (fun b => nomatch b) (fun _ => True) (fun b => nomatch b)
    (fun a op _ => ⟨trivial, by simp [Refinement.equality]⟩) (a := []) s trivial
  refine ⟨answers, ?_⟩
  unfold drain
  generalize feed.consume keepAll [] s = result at hpolls hend
  obtain ⟨outcome, s'⟩ := result
  cases outcome with
  | done b => exact nomatch b
  | dry kept => exact ⟨hpolls, hend.2.2.2.symm, fun _ => ⟨hend.1, hend.2.1⟩⟩
  | failed fault kept => exact ⟨hpolls, hend.2.symm, nofun⟩

end Feed

theorem Source.gives_list {P : Op → Prop} {ops : List Op} (h : ∀ op ∈ ops, P op) :
    feed.Gives P (ofList ops) := by
  refine Feed.gives_of_invariant (fun source => ∃ ops, source = ofList ops ∧ ∀ op ∈ ops, P op) ?_
    ⟨ops, rfl, h⟩
  rintro _ ⟨ops, rfl, h⟩
  cases ops with
  | nil => exact ⟨nofun, [], rfl, h⟩
  | cons op ops =>
    obtain ⟨hop, hops⟩ := List.forall_mem_cons.1 h
    refine ⟨fun first hfirst => ?_, ops, rfl, hops⟩
    cases hfirst
    exact hop

end BytePatch
