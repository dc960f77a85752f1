import BytePatch.Proofs.Stage.Refusals
import BytePatch.Proofs.Threads.Parallel

/-! A pair that there is no room for costs a pool that is polled by threads nothing but that pair,
whatever the order in which the threads go on. -/
namespace BytePatch

namespace Polling

variable {σ : Type}

/-- In whatever order the threads go on, the polls answer the answers of a list one by one, and then
the same every time. -/
structure Settles (feed : Feed σ) (start : Polling σ) (answers : List Answer) (last : Answer) :
    Prop where
  agrees : ∀ p, Reaches feed start p → ∀ count (h : count < p.answers.length),
    p.answers[count] = answers.getD count last
  /-- Some thread can go on, or the next poll can begin. -/
  proceeds : ∀ p, Reaches feed start p → ∃ p', Step feed p p'
  /-- There is no endless row of steps without an answer. -/
  ends : ∀ p, Reaches feed start p →
    Acc (fun later earlier => Step feed earlier later ∧ later.answers = earlier.answers) p

/-- Threads answer what a pool answers on all schedules. -/
theorem settles_of_answers {feed : Feed σ} {aligner : Aligner} {workers : Nat} (hw : 0 < workers)
    {s : σ} {answers : List Answer} {last : Answer}
    (h : ∀ early, (Layer.feed feed).Answers (.new (.pool (.new aligner workers early)), s)
      answers last) :
    Settles feed (new aligner workers s) answers last where
  agrees p hr count hc := by
    obtain ⟨early, s', hpolls⟩ := Reaches.polls hw hr
    exact (h early).polls hpolls hc
  proceeds p hr := Reaches.exists_step hw hr
  ends p hr := Reaches.acc hw hr

end Polling

namespace Queue

variable {source : Queue}

/-- What a source gives is answered piece by piece by a pool, on every schedule and by threads in
every order: what comes of a pair, or a single op, or one failure for a pair that there is no room
for. If each pair is compared at once the answers are the same up to the first failure, which then
comes again and again and changes nothing; only where a pair is lost, at prices that cannot be
counted, does that layer find nothing before the end, and then it goes on. -/
theorem answers_refused {ops : Script} (hsource : source.Delivers ops)
    (hvalid : ∀ op ∈ ops, op.Valid) {chunk : Nat} (hchunk : chunk + 1 < 2 ^ 32) (method : Method)
    (divider : Divider) {workers : Nat} (hworkers : 1 ≤ workers) :
    ∃ aligner, Aligner.forChunk chunk method divider = .ok aligner ∧
      Polling.Settles (Stack.feed Source.base source.depth) (.new aligner workers source.stack)
        (ops.answers aligner) (.ok none) ∧
      (∀ early, (source.under (.pool (.new aligner workers early))).Answers (ops.answers aligner)
        (.ok none)) ∧
      (source.under (.align aligner)).Answers ((ops.answersAtOnce aligner).takeWhile (·.isOk))
        (((ops.answers aligner).find? (!·.isOk)).getD (.ok none)) ∧
      (source.under (.align aligner)).Sticks ∧
      Feed.given ((ops.answersAtOnce aligner).takeWhile (·.isOk)) =
        Feed.given ((ops.answers aligner).takeWhile (·.isOk)) ∧
      (ops.answersAtOnce aligner = ops.answers aligner ∨
        ∃ orig target, .pair orig target ∈ Entry.cut ops ∧
          Aligner.cells orig target ≤ aligner.capacity ∧ method.Loses orig target) := by
  have hcount := Aligner.le_maxCells_of_lt hchunk
  have hpool : ∀ early, (source.under (.pool (.new ⟨method.strategyWith divider, _⟩ workers
      early))).Answers (ops.answers _) (.ok none) := answers_pool hsource hcount hworkers
  refine ⟨_, Aligner.forChunk_of_lt hchunk method divider,
    Polling.settles_of_answers hworkers hpool, hpool, ?_, sticks_align hsource _,
    Entry.given_answersAtOnce _ _, ?_⟩
  · rw [Script.answers, ← Entry.find?_answersAtOnce]
    exact answers_align hsource hcount
  · by_cases hlost : ∃ orig target, .pair orig target ∈ Entry.cut ops ∧
        Aligner.cells orig target ≤ (chunk + 1) * (chunk + 1) ∧ method.Loses orig target
    · exact .inr hlost
    · refine .inl (List.flatMap_congr fun entry hm =>
        Entry.answersAtOnce_eq fun orig target heq hfits => ?_)
      subst heq
      have horig : orig ≠ [] := by
        rintro rfl
        exact absurd (hvalid _ (Entry.mem_of_pair_mem_cut hm).1).1 (Nat.lt_irrefl 0)
      exact method.script_ne_nil divider horig fun hl => hlost ⟨orig, target, hm, hfits, hl⟩

/-- Two pairs with room for them, and between them one without. -/
def refusedMiddle : Script :=
  [.delete [1], .insert [1, 2], .delete [3, 4, 5], .insert [6, 7, 8], .copy 2, .insert [9],
    .delete [9]]

/-- What comes after the pair in the middle still comes if there is a pool. -/
theorem answers_refused_middle : ∃ aligner, Aligner.forChunk 2 .edit = .ok aligner ∧
    Polling.Settles (Stack.feed Source.base 0) (.new aligner 2 (.ofList refusedMiddle))
      [.ok (some (.copy 1)), .ok (some (.insert [2])), .error (.capacityExceeded 16 9),
        .ok (some (.copy 2)), .ok (some (.copy 1))] (.ok none) ∧
    ((ofSource (.ofList refusedMiddle)).under (.align aligner)).Answers
      [.ok (some (.copy 1)), .ok (some (.insert [2]))] (.error (.capacityExceeded 16 9)) ∧
    ((ofSource (.ofList refusedMiddle)).under (.align aligner)).Sticks := by
  obtain ⟨aligner, haligner, hsettles, -, halign, hsticks, -, -⟩ :=
    answers_refused (delivers_list refusedMiddle) (by decide) (show 2 + 1 < 2 ^ 32 by decide)
      .edit .myers (Nat.le_add_left 1 1)
  cases haligner
  exact ⟨_, rfl, hsettles, halign, hsticks⟩

end Queue

end BytePatch
