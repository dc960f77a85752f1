import BytePatch.Proofs.Stage.Recovery
import BytePatch.Proofs.Threads.Progress
import BytePatch.Proofs.Threads.Termination

/-! Failures that pass cost nothing where all that was taken is kept: what is given is what would be
given without them, and each of them is met once. With a pool this is so whatever the order in which
the threads go on, though at which poll a failure is met is up to them. -/
namespace BytePatch

open Feed (given failures)

variable {σ τ : Type}

/-- Each pair that ops are cut into is one that the aligner has room for. -/
def Aligner.Fits (aligner : Aligner) (ops : Script) : Prop :=
  ∀ orig target, .pair orig target ∈ Entry.cut ops → aligner.checkCapacity orig target = .ok ()

/-- The layers that keep what they have in hand when a poll fails, if those that compare have room
for every pair. With each stands what it answers, failures passed over, when there are such ops
below it. -/
inductive Work.Patient (ops : Script) : Work → List Answer → Prop
  | coalesce : Patient ops .coalesce (Answer.each ops.grouped)
  | compact : Patient ops .compact (Answer.each ops.compacted)
  | pump : Patient ops (.pump .new) (Answer.each ops)
  | align {aligner} : aligner.Fits ops → Patient ops (.align aligner) (ops.comparedAtOnce aligner)
  | pool {aligner workers early} : 1 ≤ workers → aligner.Fits ops →
    Patient ops (.pool (.new aligner workers early)) (Answer.each (ops.compared aligner))

private theorem Aligner.Fits.made {aligner : Aligner} {ops : Script} (h : aligner.Fits ops) :
    ∀ entry ∈ Entry.cut ops, entry.Made aligner := by
  rintro entry hm orig target rfl
  rw [Aligner.align, h orig target hm]

namespace Work.Patient
variable {below : Feed σ} {s : σ} {ops : Script} {faults : List Fault} {work : Work}
  {expected : List Answer}

theorem recovers (h : work.Patient ops expected)
    (hs : below.Recovers s (Answer.each ops) faults) :
    (Layer.feed below).Recovers (.new work, s) expected faults := by
  cases h with
  | coalesce => exact Coalesce.recovers hs
  | compact => exact Compact.recovers hs
  | pump => exact Pump.recovers hs
  | align hfits => exact Align.recovers hs hfits.made
  | pool hworkers hfits => exact Pool.recovers hs hfits.made hworkers _

/-- Nothing is found before the end but for a pair of which nothing comes. -/
theorem exists_lost (h : work.Patient ops expected) (hnone : .ok none ∈ expected) :
    ∃ aligner orig target, work = .align aligner ∧ .pair orig target ∈ Entry.cut ops ∧
      aligner.strategy.script orig target = [] := by
  have hops {out : List Op} (hm : .ok none ∈ Answer.each out) : False := by simp at hm
  cases h with
  | coalesce => exact (hops hnone).elim
  | compact => exact (hops hnone).elim
  | pump => exact (hops hnone).elim
  | pool hworkers hfits => exact (hops hnone).elim
  | @align aligner hfits =>
    obtain ⟨entry, hentry, hnone⟩ := List.mem_flatMap.1 hnone
    unfold Entry.madeAtOnce at hnone
    split at hnone
    · next hmade =>
      cases entry with
      | single op => cases hmade
      | pair orig target => exact ⟨aligner, orig, target, rfl, hentry, hmade⟩
    · exact (hops hnone).elim

end Work.Patient

namespace Polling

/-- In whatever order the threads go on, the polls give the ops of a list one by one and meet
failures one by one, and find nothing only when all of both have come. -/
structure Recovers (feed : Feed σ) (start : Polling σ) (ops : List Op) (faults : List Fault) :
    Prop where
  gives : ∀ p, Reaches feed start p → given p.answers <+: ops ∧ failures p.answers <+: faults
  completes : ∀ p, Reaches feed start p → .ok none ∈ p.answers →
    given p.answers = ops ∧ failures p.answers = faults
  /-- Some thread can go on, or the next poll can begin. -/
  proceeds : ∀ p, Reaches feed start p → ∃ p', Step feed p p'
  /-- There is no endless row of steps without an answer. -/
  ends : ∀ p, Reaches feed start p →
    Acc (fun later earlier => Step feed earlier later ∧ later.answers = earlier.answers) p

/-- Threads meet the same failures, and give the same, as a pool does on every schedule. -/
theorem recovers_of_pool {feed : Feed σ} {aligner : Aligner} {workers : Nat} (hw : 0 < workers)
    {s : σ} {ops : List Op} {faults : List Fault}
    (h : ∀ early, (Layer.feed feed).Recovers (.new (.pool (.new aligner workers early)), s)
      (Answer.each ops) faults) :
    Recovers feed (new aligner workers s) ops faults := by
  have hpolls (p : Polling σ) (hr : Reaches feed (new aligner workers s) p) :
      ∃ rest later, ops = given p.answers ++ rest ∧ faults = failures p.answers ++ later ∧
        (.ok none ∈ p.answers → rest = [] ∧ later = []) := by
    obtain ⟨early, s', hp⟩ := Reaches.polls hw hr
    obtain ⟨rest, later, hops, hfaults, -, hdry⟩ := (h early).polls hp
    exact ⟨rest, later, hops, hfaults, hdry⟩
  refine ⟨fun p hr => ?_, fun p hr hnone => ?_, fun p hr => Reaches.exists_step hw hr,
    fun p hr => Reaches.acc hw hr⟩
  · obtain ⟨rest, later, hops, hfaults, -⟩ := hpolls p hr
    exact ⟨⟨rest, hops.symm⟩, later, hfaults.symm⟩
  · obtain ⟨rest, later, hops, hfaults, hdry⟩ := hpolls p hr
    obtain ⟨rfl, rfl⟩ := hdry hnone
    rw [hops, hfaults, List.append_nil, List.append_nil]
    exact ⟨rfl, rfl⟩

end Polling

namespace Layer

/-- Above a feed whose polls give ops and fail now and then, and above one that gives the same ops and
never fails, a layer that keeps what it has in hand answers the same, but that it meets each of the
failures once besides. -/
theorem answers_patient {below : Feed σ} {clean : Feed τ} {s : σ} {t : τ} {answers : List Answer}
    (hbelow : below.Answers s answers (.ok none)) (hends : .ok none ∉ answers)
    (hclean : clean.Answers t (answers.filter (·.isOk)) (.ok none))
    {work : Work} {expected : List Answer} (hwork : work.Patient (given answers) expected) :
    (∃ out, (feed below).Answers (.new work, s) out (.ok none) ∧
      out.filter (·.isOk) = expected ∧ failures out = failures answers) ∧
    (feed clean).Answers (.new work, t) expected (.ok none) ∧
    (.ok none ∈ expected → ∃ aligner orig target, work = .align aligner ∧
      .pair orig target ∈ Entry.cut (given answers) ∧ aligner.strategy.script orig target = []) ∧
    (∀ pool, work = .pool pool →
      Polling.Recovers below (.new pool.aligner pool.workers s) (given expected)
        (failures answers) ∧
      Polling.Recovers clean (.new pool.aligner pool.workers t) (given expected) []) := by
  have heach := Feed.filter_isOk_eq_each hends
  have hs : below.Recovers s (Answer.each (given answers)) (failures answers) :=
    ⟨answers, hbelow, heach, rfl⟩
  have ht : clean.Recovers t (Answer.each (given answers)) [] :=
    ⟨Answer.each (given answers), heach ▸ hclean, Feed.filter_isOk_of_clean (Feed.clean_each _),
      Feed.failures_each _⟩
  refine ⟨hwork.recovers hs, (hwork.recovers ht).answers_of_clean, hwork.exists_lost, ?_⟩
  rintro pool rfl
  cases hwork with
  | @pool aligner workers early hworkers hfits =>
    rw [Feed.given_each]
    have hpool {υ : Type} {feed : Feed υ} {start : υ} {faults : List Fault}
        (h : feed.Recovers start (Answer.each (given answers)) faults) :=
      Polling.recovers_of_pool hworkers fun early => Pool.recovers h hfits.made hworkers early
    exact ⟨hpool hs, hpool ht⟩

/-- A pair that a failure tears apart, and one failure more before an op that stands alone. -/
def hiccups : List Answer :=
  [.ok (some (.delete [1])), .error (.io .unfilled), .ok (some (.insert [1, 2])),
    .error (.missingDeletePayload 3), .ok (some (.copy 3))]

theorem answers_patient_hiccups : ∃ aligner, Aligner.forChunk 2 .edit = .ok aligner ∧
    (∃ out, (feed Feed.answering).Answers
        (.new (.pool (.new aligner 2 Pool.lazy)), hiccups) out (.ok none) ∧
      out.filter (·.isOk) = Answer.each [.copy 1, .insert [2], .copy 3] ∧
      failures out = [.io .unfilled, .missingDeletePayload 3]) ∧
    Polling.Recovers Feed.answering (.new aligner 2 hiccups)
      [.copy 1, .insert [2], .copy 3] [.io .unfilled, .missingDeletePayload 3] := by
  have hfits : (⟨Method.edit.strategyWith .myers, 9⟩ : Aligner).Fits (given hiccups) := by
    intro orig target hm
    have hcut : Entry.cut (given hiccups) = [.pair [1] [1, 2], .single (.copy 3)] := by decide
    obtain ⟨rfl, rfl⟩ : orig = [1] ∧ target = [1, 2] := by simpa [hcut] using hm
    rfl
  obtain ⟨hout, -, -, hthreads⟩ := answers_patient (Feed.answers_answering hiccups) (by decide)
    (Feed.answers_answering (hiccups.filter (·.isOk)))
    (Work.Patient.pool (Nat.le_add_left 1 1) hfits)
  exact ⟨_, rfl, hout, (hthreads _ rfl).1⟩

end Layer

end BytePatch
