import BytePatch.Proofs.Queue.Answers

/-! Feeds that fail and then go on. A consumer that takes up again after a failure with what it had
in its hands meets each failure once and is given, failures passed over, what it would be given
without them. -/
namespace BytePatch

/-- Why a poll failed, if it did. -/
def Answer.fault? : Answer → Option Fault
  | .ok _ => none
  | .error fault => some fault

namespace Feed
variable {σ α β : Type} {feed : Feed σ} {s s' : σ}

/-- The failures among the answers. -/
def failures (answers : List Answer) : List Fault := answers.filterMap Answer.fault?

@[simp] theorem failures_nil : failures [] = [] := rfl

@[simp] theorem failures_append (xs ys : List Answer) :
    failures (xs ++ ys) = failures xs ++ failures ys := List.filterMap_append

@[simp] theorem failures_ok (op? : Option Op) (answers : List Answer) :
    failures (.ok op? :: answers) = failures answers := rfl

@[simp] theorem failures_error (fault : Fault) (answers : List Answer) :
    failures (.error fault :: answers) = fault :: failures answers := rfl

@[simp] theorem failures_each (ops : List Op) : failures (Answer.each ops) = [] := by
  induction ops with
  | nil => rfl
  | cons op ops ih => exact ih

theorem failures_eq_nil_iff (answers : List Answer) : failures answers = [] ↔ Clean answers := by
  induction answers with
  | nil => exact ⟨fun _ => clean_nil, fun _ => rfl⟩
  | cons answer answers ih =>
    cases answer with
    | error fault =>
      refine ⟨nofun, fun h => ?_⟩
      obtain ⟨op?, hop⟩ := h _ List.mem_cons_self
      cases hop
    | ok op? =>
      rw [failures_ok, ih]
      exact ⟨clean_cons, fun h answer hm => h answer (List.mem_cons_of_mem _ hm)⟩

theorem filter_isOk_of_clean {answers : List Answer} (h : Clean answers) :
    answers.filter (·.isOk) = answers := by
  rw [List.filter_eq_self]
  intro answer hm
  obtain ⟨op?, rfl⟩ := h answer hm
  rfl

theorem filter_isOk_eq_each {answers : List Answer} (h : .ok none ∉ answers) :
    answers.filter (·.isOk) = Answer.each (given answers) := by
  induction answers with
  | nil => rfl
  | cons answer answers ih =>
    have hrest := ih fun hm => h (List.mem_cons_of_mem _ hm)
    rcases answer with fault | - | op
    · exact hrest
    · exact absurd List.mem_cons_self h
    · exact congrArg (.ok (some op) :: ·) hrest

/-- Failures passed over, the polls from now on answer the answers of a list one by one, and then
they find nothing; and the failures passed over are those of a list. -/
def Recovers (feed : Feed σ) (s : σ) (answers : List Answer) (faults : List Fault) : Prop :=
  ∃ all, feed.Answers s all (.ok none) ∧ all.filter (·.isOk) = answers ∧ failures all = faults

/-- What a poll does to the answers and the failures still to come: a failure is the first of them
and leaves the answers as they are, and nothing more is found only if no failure is to come. -/
def Meets (Rest : σ → List Answer → List Fault → Prop) (answers : List Answer)
    (faults : List Fault) : Answer × σ → Prop
  | (.error fault, s) => ∃ later, faults = fault :: later ∧ Rest s answers later
  | (.ok op?, s) => answers.headD (.ok none) = .ok op? ∧ (answers = [] → faults = []) ∧
    Rest s answers.tail faults

section Recovers
variable {answers : List Answer} {faults : List Fault} {ops : List Op}

theorem Recovers.poll (h : feed.Recovers s answers faults) :
    Meets feed.Recovers answers faults (feed.poll s) := by
  obtain ⟨all, hall, rfl, rfl⟩ := h
  obtain ⟨hhead, htail⟩ := hall.poll
  generalize feed.poll s = result at hhead htail
  obtain ⟨answer, s'⟩ := result
  obtain rfl : answer = all.headD (.ok none) := hhead
  cases all with
  | nil => exact ⟨rfl, fun _ => rfl, [], htail, rfl, rfl⟩
  | cons answer all =>
    cases answer with
    | error fault => exact ⟨failures all, rfl, all, htail, rfl, rfl⟩
    | ok op? => exact ⟨rfl, nofun, all, htail, rfl, rfl⟩

/-- What is true of a feed and what is still to come, if it stays true, makes the feed recover. -/
theorem recovers_of_invariant (Inv : σ → List Answer → List Fault → Prop)
    (h : ∀ s answers faults, Inv s answers faults → Meets Inv answers faults (feed.poll s))
    (hs : Inv s answers faults) : feed.Recovers s answers faults := by
  induction hn : answers.length + faults.length using Nat.strongRecOn
    generalizing s answers faults with
  | _ n ih =>
  have hmeets := h s answers faults hs
  rcases hp : feed.poll s with ⟨fault | op?, s'⟩
  · rw [hp] at hmeets
    obtain ⟨later, rfl, hlater⟩ := hmeets
    obtain ⟨all, hall, hoks, hfaults⟩ := ih _ (hn ▸ Nat.lt_succ_self _) hlater rfl
    exact ⟨.error fault :: all, hall.cons hp, hoks, congrArg (fault :: ·) hfaults⟩
  · rw [hp] at hmeets
    obtain ⟨hhead, hdry, hrest⟩ := hmeets
    cases answers with
    | nil =>
      obtain rfl := hdry rfl
      refine ⟨[], ?_, rfl, rfl⟩
      -- Nothing is to come any more, and it stays so.
      refine answers_of_invariant (fun s answers => answers = [] ∧ Inv s [] []) ?_ ⟨rfl, hs⟩
      rintro s _ ⟨rfl, hs⟩
      have hmeets := h s [] [] hs
      rcases hp : feed.poll s with ⟨fault | op?, s'⟩
      · rw [hp] at hmeets
        obtain ⟨later, hnone, -⟩ := hmeets
        cases hnone
      · rw [hp] at hmeets
        exact ⟨hmeets.1.symm, rfl, hmeets.2.2⟩
    | cons answer answers =>
      obtain rfl : answer = .ok op? := hhead
      have hless : answers.length + faults.length < n := by
        rw [← hn, List.length_cons]
        omega
      obtain ⟨all, hall, rfl, hfaults⟩ := ih _ hless hrest rfl
      exact ⟨.ok op? :: all, hall.cons hp, rfl, hfaults⟩

theorem Recovers.answers_of_clean (h : feed.Recovers s answers []) :
    feed.Answers s answers (.ok none) := by
  obtain ⟨all, hall, rfl, hfaults⟩ := h
  rwa [filter_isOk_of_clean ((failures_eq_nil_iff all).1 hfaults)]

theorem Delivers.recovers (h : feed.Delivers s ops) : feed.Recovers s (Answer.each ops) [] := by
  refine ⟨Answer.each ops, ?_, filter_isOk_of_clean (clean_each ops), failures_each ops⟩
  refine answers_of_invariant (fun s answers => ∃ ops, answers = Answer.each ops ∧
    feed.Delivers s ops) ?_ ⟨ops, rfl, h⟩
  rintro s _ ⟨ops, rfl, h⟩
  obtain ⟨hhead, htail⟩ := h.poll
  cases ops with
  | nil => exact ⟨hhead, [], rfl, htail⟩
  | cons op ops => exact ⟨hhead, ops, rfl, htail⟩

theorem Recovers.delivers (h : feed.Recovers s (Answer.each ops) []) : feed.Delivers s ops := by
  refine delivers_of_invariant (fun s ops => feed.Answers s (Answer.each ops) (.ok none)) ?_
    h.answers_of_clean
  intro s ops h
  obtain ⟨hhead, htail⟩ := h.poll
  cases ops with
  | nil => exact ⟨hhead, htail⟩
  | cons op ops => exact ⟨hhead, htail⟩

/-- Whoever polls a feed that recovers is given the first of its ops and meets the first of its
failures, and finds nothing more only if there are no more of either. -/
theorem Recovers.polls {polled : List Answer} (h : feed.Recovers s (Answer.each ops) faults)
    (hp : feed.Polls s polled s') : ∃ rest later, ops = given polled ++ rest ∧
      faults = failures polled ++ later ∧ feed.Recovers s' (Answer.each rest) later ∧
      (.ok none ∈ polled → rest = [] ∧ later = []) := by
  induction hp generalizing ops faults with
  | nil => exact ⟨ops, faults, rfl, rfl, h, nofun⟩
  | @cons s s' s'' answer answers hpoll hrest ih =>
    have hmeets := h.poll
    rw [hpoll] at hmeets
    rcases answer with fault | - | op
    · obtain ⟨later, rfl, hlater⟩ := hmeets
      obtain ⟨rest, later, hops, rfl, hrecovers, hdry⟩ := ih hlater
      exact ⟨rest, later, hops, rfl, hrecovers, fun hm => hdry (by simpa using hm)⟩
    · obtain ⟨hhead, hnone, htail⟩ := hmeets
      obtain rfl : ops = [] := by
        cases ops with
        | nil => rfl
        | cons op ops => cases hhead
      obtain rfl := hnone rfl
      have htail : feed.Recovers s' (Answer.each []) [] := htail
      obtain ⟨rest, later, hops, hfaults, hrecovers, -⟩ := ih htail
      exact ⟨rest, later, hops, hfaults, hrecovers, fun _ =>
        ⟨(List.append_eq_nil_iff.1 hops.symm).2, (List.append_eq_nil_iff.1 hfaults.symm).2⟩⟩
    · obtain ⟨hhead, -, htail⟩ := hmeets
      cases ops with
      | nil => cases hhead
      | cons first ops =>
        cases hhead
        obtain ⟨rest, later, rfl, hfaults, hrecovers, hdry⟩ := ih htail
        exact ⟨rest, later, rfl, hfaults, hrecovers, fun hm => hdry (by simpa using hm)⟩

/-- How a consumer comes out of a feed that recovers: a failure leaves it what it had, and the
others of the failures still to come. -/
def Recovered (feed : Feed σ) (More : α → List Op → Prop) (Done : β → List Op → Prop)
    (faults : List Fault) : Outcome α β × σ → Prop
  | (.done b, s) => ∃ rest, feed.Recovers s (Answer.each rest) faults ∧ Done b rest
  | (.dry a, s) => faults = [] ∧ feed.Recovers s [] [] ∧ More a []
  | (.failed fault a, s) => ∃ rest later, faults = fault :: later ∧
    feed.Recovers s (Answer.each rest) later ∧ More a rest

/-- What is true of a consumer and the ops still to come, if each op it takes leaves it true, is
true of what it comes to and the ops it leaves. -/
theorem Recovers.consume (step : α → Op → Next α β) (More : α → List Op → Prop)
    (Done : β → List Op → Prop)
    (hstep : ∀ a op ops, More a (op :: ops) →
      (step a op).Holds (fun a' => More a' ops) (fun b => Done b ops))
    (h : feed.Recovers s (Answer.each ops) faults) {a : α} (ha : More a ops) :
    Recovered feed More Done faults (feed.consume step a s) := by
  obtain ⟨all, hall, hoks, rfl⟩ := h
  have hends : .ok none ∉ all := fun hm => by
    have hnone : .ok none ∈ Answer.each ops := hoks ▸ List.mem_filter.2 ⟨hm, rfl⟩
    simp at hnone
  obtain rfl : given all = ops := by
    rw [filter_isOk_eq_each hends] at hoks
    rw [← given_each ops, ← hoks, given_each]
  obtain ⟨rest, hrest, hends', houtcome⟩ := hall.consume step
    (fun a left => More a (given left) ∧ failures left = failures all)
    (fun b left => Done b (given left) ∧ failures left = failures all)
    (fun a op left ⟨hmore, hfaults⟩ => by
      have hn := hstep a op (given left) hmore
      cases hs : step a op <;> rw [hs] at hn <;> exact ⟨hn, hfaults⟩) hends ⟨ha, rfl⟩
  have hrecovers : feed.Recovers (feed.consume step a s).2 (Answer.each (given rest))
      (failures rest) := ⟨rest, hrest, filter_isOk_eq_each hends', rfl⟩
  generalize feed.consume step a s = result at hrecovers houtcome
  obtain ⟨b | a' | ⟨fault, a'⟩, s'⟩ := result
  · rw [houtcome.2] at hrecovers
    exact ⟨given rest, hrecovers, houtcome.1⟩
  · obtain ⟨rfl, hmore, hfaults⟩ := houtcome
    exact ⟨hfaults.symm, hrecovers, hmore⟩
  · exact ⟨given rest, failures rest, houtcome.2.symm, hrecovers, houtcome.1⟩

theorem Recovers.drain (h : feed.Recovers s (Answer.each ops) faults) :
    match feed.drain s with
    | (.ok (), out, s') => out = ops ∧ faults = [] ∧ feed.Recovers s' [] []
    | (.error fault, out, s') => ∃ rest later, ops = out ++ rest ∧ faults = fault :: later ∧
      feed.Recovers s' (Answer.each rest) later := by
  have key := h.consume keepAll (fun kept rest => ops = kept.reverse ++ rest)
    (fun b _ => b.elim) (fun kept op rest hk => by simpa [keepAll, Next.Holds] using hk)
    (a := []) rfl
  unfold Feed.drain
  generalize feed.consume keepAll [] s = result at key
  obtain ⟨b | kept | ⟨fault, kept⟩, s'⟩ := result
  · exact b.elim
  · obtain ⟨hfaults, hrest, rfl⟩ := key
    exact ⟨(List.append_nil _).symm, hfaults, hrest⟩
  · obtain ⟨rest, later, hfaults, hrest, hops⟩ := key
    exact ⟨rest, later, hops, hfaults, hrest⟩

end Recovers

end Feed

namespace Layer
variable {σ : Type} {below : Feed σ} {answers : List Answer} {faults : List Fault} {s : σ}

/-- What a refill of an empty ready buffer does to the answers and the failures still to come, which
`Rest` relates to what the layer holds and to what is below it. A failure is the first of them and
costs no answer; ready ops are the first answers, and if nothing is ready that is the first. -/
def Resumes (Rest : Work → List Op → σ → List Answer → List Fault → Prop) (answers : List Answer)
    (faults : List Fault) : Except Fault Unit × Layer × σ → Prop
  | (.error fault, layer, s) => layer.buffers.ready = [] ∧ ∃ later, faults = fault :: later ∧
    Rest layer.work layer.buffers.pending s answers later
  | (.ok (), ⟨⟨[], pending⟩, work⟩, s) => answers.headD (.ok none) = .ok none ∧
    (answers = [] → faults = []) ∧ Rest work pending s answers.tail faults
  | (.ok (), ⟨⟨op :: ready, pending⟩, work⟩, s) => ∃ later,
    answers = Answer.each (op :: ready) ++ later ∧ Rest work pending s later faults

/-- A layer recovers if each refill resumes where the one before it failed. -/
theorem recovers_of_resumes (Rest : Work → List Op → σ → List Answer → List Fault → Prop)
    (hrest : ∀ work pending s answers faults, Rest work pending s answers faults →
      Resumes Rest answers faults (shift below ⟨⟨[], pending⟩, work⟩ s))
    {work : Work} (h : Rest work [] s answers faults) :
    (feed below).Recovers (.new work, s) answers faults := by
  refine Feed.recovers_of_invariant (fun state answers faults => ∃ later,
    answers = Answer.each state.1.buffers.ready ++ later ∧
      Rest state.1.work state.1.buffers.pending state.2 later faults) ?_ ⟨answers, rfl, h⟩
  rintro ⟨⟨⟨ready, pending⟩, work⟩, s⟩ _ faults ⟨later, rfl, hlater⟩
  cases ready with
  | cons op ready => exact ⟨rfl, fun h => absurd h (List.cons_ne_nil _ _), later, rfl, hlater⟩
  | nil =>
    have hresumes := hrest work pending s later faults hlater
    change Feed.Meets (σ := Layer × σ) _ later faults (poll below (⟨⟨[], pending⟩, work⟩, s))
    simp only [poll]
    generalize shift below ⟨⟨[], pending⟩, work⟩ s = result at hresumes
    obtain ⟨fault | _, ⟨⟨ready, pending'⟩, work'⟩, s'⟩ := result
    · obtain ⟨hready, later', rfl, hsame⟩ := hresumes
      obtain rfl : ready = [] := hready
      exact ⟨later', rfl, later, rfl, hsame⟩
    · cases ready with
      | nil =>
        obtain ⟨hhead, hdry, htail⟩ := hresumes
        exact ⟨hhead, hdry, later.tail, rfl, htail⟩
      | cons op ready =>
        obtain ⟨later', rfl, hlater'⟩ := hresumes
        exact ⟨rfl, fun h => absurd h (List.cons_ne_nil _ _), later', rfl, hlater'⟩

/-- What a refill of an empty ready buffer does above a feed that recovers, if the layer holds
nothing besides its buffers: of all that is to come the first ops become ready, and none only if
nothing is to come, neither ops nor failures; or it fails, and all is still to come. `out` says what
is to come, given the pending ops and the ops still below. -/
def Advances (below : Feed σ) (Steady : List Op → Prop) (out : List Op → List Op → Script)
    (xs : Script) (faults : List Fault) : Except Fault Unit × Buffers × σ → Prop
  | (.error fault, buffers, s) => buffers.ready = [] ∧ Steady buffers.pending ∧ ∃ ops later,
    faults = fault :: later ∧ below.Recovers s (Answer.each ops) later ∧
    xs = out buffers.pending ops
  | (.ok (), buffers, s) => Steady buffers.pending ∧ ∃ ops,
    below.Recovers s (Answer.each ops) faults ∧ xs = buffers.ready ++ out buffers.pending ops ∧
    (buffers.ready = [] → out buffers.pending ops = [] ∧ faults = [])

/-- A layer gives all that is to come if each refill makes the first of it ready. -/
theorem recovers_of_advances {work : Work}
    {refill : Buffers → σ → Except Fault Unit × Buffers × σ} {Steady : List Op → Prop}
    {out : List Op → List Op → Script}
    (hshift : ∀ buffers s, shift below ⟨buffers, work⟩ s =
      ((refill buffers s).1, ⟨(refill buffers s).2.1, work⟩, (refill buffers s).2.2))
    (hadvances : ∀ {pending s ops faults}, below.Recovers s (Answer.each ops) faults →
      Steady pending →
        Advances below Steady out (out pending ops) faults (refill ⟨[], pending⟩ s))
    (hnew : Steady []) {ops : List Op} (hs : below.Recovers s (Answer.each ops) faults) :
    (feed below).Recovers (.new work, s) (Answer.each (out [] ops)) faults := by
  refine recovers_of_resumes (fun work' pending s answers faults => work' = work ∧
    Steady pending ∧ ∃ ops, below.Recovers s (Answer.each ops) faults ∧
      answers = Answer.each (out pending ops)) ?_ ⟨rfl, hnew, ops, hs, rfl⟩
  rintro _ pending s _ faults ⟨rfl, hsteady, ops, hr, rfl⟩
  have key := hadvances hr hsteady
  rw [hshift]
  generalize refill ⟨[], pending⟩ s = result at key
  obtain ⟨fault | _, ⟨ready, pending'⟩, s'⟩ := result
  · obtain ⟨hready, hsteady', ops', later, hfaults, hr', hout⟩ := key
    exact ⟨hready, later, hfaults, rfl, hsteady', ops', hr', congrArg _ hout⟩
  · obtain ⟨hsteady', ops', hr', hout, hdry⟩ := key
    cases ready with
    | nil =>
      obtain ⟨hnone, hfaults⟩ := hdry rfl
      have hnil : out pending ops = [] := hout.trans hnone
      rw [hnil]
      exact ⟨rfl, fun _ => hfaults, rfl, hsteady', ops', hr', (congrArg Answer.each hnone).symm⟩
    | cons op ready =>
      refine ⟨Answer.each (out pending' ops'), ?_, rfl, hsteady', ops', hr', rfl⟩
      rw [hout, Answer.each, List.map_append]

end Layer

end BytePatch
