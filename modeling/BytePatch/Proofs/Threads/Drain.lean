import BytePatch.Proofs.Threads.Polling

/-! What a drain by threads comes to, whatever the order in which they go on: a drain is a row of
polls, so a pool on some schedule gives the same ops. -/
namespace BytePatch

/-- What the poll answers that ends a run. -/
def Answer.ending : Except Fault Unit → Answer
  | .ok () => .ok none
  | .error fault => .error fault

/-- A row of polls that give ops, but for the last one, is all that a drain asks for. -/
theorem Feed.Polls.drain {σ : Type} {feed : Feed σ} {s s' : σ} {ops : List Op}
    {answer : Except Fault Unit} (h : feed.Polls s (Answer.each ops ++ [.ending answer]) s') :
    ∃ last, feed.drain s = (answer, ops, last) := by
  suffices hruns : ∃ ending, feed.Runs s ops ending ∧ answer = Feed.answer ending by
    obtain ⟨ending, hruns, rfl⟩ := hruns
    exact hruns.drain
  induction ops generalizing s with
  | nil =>
    cases answer with
    | ok _ =>
      cases h with
      | cons hp _ => exact ⟨none, .dry hp, rfl⟩
    | error fault =>
      cases h with
      | cons hp _ => exact ⟨some fault, .failed hp, rfl⟩
  | cons op ops ih =>
    cases h with
    | cons hp hrest =>
      obtain ⟨ending, hruns, heq⟩ := ih hrest
      exact ⟨ending, .op hp hruns, heq⟩

namespace Draining

variable {σ : Type} {feed : Feed σ}

/-- A drain as the row of polls that it is. -/
def polling : Draining σ → Polling σ
  | ⟨t, drained, .polling⟩ => ⟨t, Answer.each drained, false⟩
  | ⟨t, drained, .refilling⟩ => ⟨t, Answer.each drained, true⟩
  | ⟨t, drained, .done answer⟩ => ⟨t, Answer.each drained ++ [.ending answer], false⟩

theorem Step.polling {d d' : Draining σ} (hs : Step feed d d') :
    Polling.Step feed d.polling d'.polling := by
  have each (drained : List Op) (op : Op) :
      Answer.each (drained ++ [op]) = Answer.each drained ++ [.ok (some op)] := List.map_append
  cases hs with
  | @thread t t' drained phase hs => cases phase <;> exact .thread hs
  | @take t drained op ready hready =>
    simp only [Draining.polling, each]
    exact .take hready
  | refill hready => exact .refill hready
  | @refilled t drained op ready hc hready =>
    simp only [Draining.polling, each]
    exact .refilled hc hready
  | dry hc hready => exact .dry hc hready
  | failed hc => exact .failed hc

variable {aligner : Aligner} {workers : Nat} {s : σ} {d : Draining σ}

theorem Reaches.polling (h : Reaches feed (new aligner workers s) d) :
    Polling.Reaches feed (.new aligner workers s) d.polling := by
  induction h with
  | refl => exact .refl
  | step _ hs ih => exact ih.tail hs.polling

theorem Reaches.sound (hw : 0 < workers) (h : Reaches feed (new aligner workers s) d) :
    d.threads.Sound := by
  obtain ⟨found, htracked⟩ := Polling.Reaches.tracked hw h.polling
  obtain ⟨t, drained, phase⟩ := d
  cases phase <;> exact htracked.sound

/-- Whatever the order in which the threads go on, a drain that ends comes to what the drain of a
pool comes to on some schedule. -/
theorem Reaches.drain (hw : 0 < workers) (h : Reaches feed (new aligner workers s) d)
    {answer : Except Fault Unit} (hd : d.phase = .done answer) :
    ∃ early last, (Layer.feed feed).drain (Layer.new (.pool (.new aligner workers early)), s) =
      (answer, d.drained, last) := by
  obtain ⟨early, last, hpolls⟩ := Polling.Reaches.polls hw h.polling
  obtain ⟨t, drained, phase⟩ := d
  obtain rfl : phase = .done answer := hd
  exact ⟨early, hpolls.drain⟩

end Draining

end BytePatch
