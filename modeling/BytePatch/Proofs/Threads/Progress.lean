import BytePatch.Proofs.Threads.Drain

/-! A pool that is polled or drained by threads never gets stuck: some thread can go on until the
poll, or the drain, is done. -/
namespace BytePatch

section Enough

variable {σ α β : Type} {feed : Feed σ}

private theorem done_of_consume {step : α → Op → Next α β} (Done : β → Prop)
    (hstep : ∀ state op result, step state op = .done result → Done result) (state : α) (s : σ)
    {result : β} {s' : σ} (h : feed.consume step state s = (.done result, s')) : Done result := by
  fun_induction Feed.consume feed step state s with
  | case1 => simp at h
  | case2 => simp at h
  | case3 state s op s' hp result hs =>
    cases h
    exact hstep state op _ hs
  | case4 state s op s' hp state' hs ih => exact ih h

private theorem le_of_require {count : Nat} {pending pending' : List Op} {s s' : σ}
    (h : feed.require count pending s = (.ok true, pending', s')) : count ≤ pending'.length := by
  rw [Feed.require] at h
  split at h
  · next hl =>
    cases h
    exact hl
  split at h
  · next hd =>
    cases h
    refine done_of_consume (fun pending => count ≤ pending.length) ?_ pending s hd
    intro kept op result hg
    unfold Feed.require.gather at hg
    dsimp only at hg
    split at hg
    · next hl =>
      cases hg
      exact hl
    · cases hg
  · cases h
  · cases h

end Enough

namespace Threads

variable {σ : Type} {feed : Feed σ} {t : Threads σ}

/-- A worker can go on unless it is gone or has nothing to wait for but a job. -/
theorem step_of_worker {worker : Worker} (hm : worker ∈ t.workers) (hgone : worker ≠ .gone)
    (hjob : t.jobs ≠ [] ∨ worker.due? t.aligner ≠ none ∨ t.isOpen = false) :
    ∃ t', Step feed t t' := by
  obtain ⟨front, back, hw⟩ := List.append_of_mem hm
  suffices h : ∃ t' worker', Works t worker t' worker' by
    obtain ⟨t', worker', hs⟩ := h
    exact ⟨_, .work hw hs⟩
  cases worker with
  | waiting graph? =>
    cases hj : t.jobs with
    | cons job jobs => exact ⟨_, _, .take hj⟩
    | nil => exact ⟨_, _, .leave hj (by simpa [hj] using hjob)⟩
  | working graph? job =>
    cases hc : t.cancelled with
    | true => exact ⟨_, _, .refuse hc⟩
    | false => exact ⟨_, _, .compare hc rfl⟩
  | finished graph? slot reply => exact ⟨_, _, .finish⟩
  | replying graph? slot reply => exact ⟨_, _, .reply⟩
  | gone => exact absurd rfl hgone

private theorem step_of_receiving (h : t.Sound) {slot : Nat} (hc : t.control = .receiving slot) :
    ∃ t', Step feed t t' := by
  have hslot : slot ∈ t.dues.map Prod.fst := h.owed.mem_iff.2 (by simp [awaited, hc, Control.slot?])
  obtain ⟨⟨_, reply⟩, hdue, rfl⟩ := List.mem_map.1 hslot
  simp only [dues, List.mem_append] at hdue
  obtain (hdue | hdue) | hdue := hdue
  · -- Nobody has taken the job yet. While there are jobs no worker is gone, so any of them will do.
    obtain ⟨worker, hm⟩ := List.exists_mem_of_ne_nil _ h.staffed
    have hjobs : t.jobs ≠ [] := by
      rintro hnil
      simp [hnil] at hdue
    refine step_of_worker hm ?_ (.inl hjobs)
    rintro rfl
    exact hjobs (h.gone hm).2
  · obtain ⟨worker, hm, hsome⟩ := List.mem_filterMap.1 hdue
    refine step_of_worker hm ?_ (.inr (.inl (by simp [hsome])))
    rintro rfl
    cases hsome
  · obtain ⟨front, back, hr⟩ := List.append_of_mem hdue
    exact ⟨_, .poll (.receive hc hr)⟩

private theorem step_of_joining (h : t.Sound) {answer : Except Fault Unit}
    (hc : t.control = .joining answer) : ∃ t', Step feed t t' := by
  by_cases hall : ∀ worker ∈ t.workers, worker = .gone
  · cases answer with
    | ok _ => exact ⟨_, .poll (.join hc hall)⟩
    | error fault => exact ⟨_, .poll (.quit hc hall)⟩
  · push Not at hall
    obtain ⟨worker, hm, hgone⟩ := hall
    have hclosed : t.isOpen = false := by simpa [Placed, hc] using h.placed
    exact step_of_worker hm hgone (.inr (.inr hclosed))

private theorem step_of_giving (hc : t.control = .giving) : ∃ t', Step feed t t' := by
  rcases hr : feed.require 2 t.buffers.pending t.below with ⟨fault | enough, pending, below⟩
  · exact ⟨_, .poll (.fail hc hr)⟩
  cases enough with
  | false => exact ⟨_, .poll (.close hc hr)⟩
  | true =>
    match pending, le_of_require hr with
    | a :: b :: pending, _ =>
      cases hp : a.pair? b with
      | none => exact ⟨_, .poll (.single hc hr hp)⟩
      | some pair => exact ⟨_, .poll (.count hc hr hp)⟩

private theorem step_of_popping (hc : t.control = .popping) : ∃ t', Step feed t t' := by
  match hchain : t.chain with
  | [] => exact ⟨_, .poll (.dry hc hchain)⟩
  | .op op :: chain => exact ⟨_, .poll (.pop hc hchain)⟩
  | .awaited slot :: chain => exact ⟨_, .poll (.await hc hchain)⟩

/-- While a refill is under way some thread can go on. -/
theorem Sound.exists_step (h : t.Sound) (hc : ∀ answer, t.control ≠ .returned answer) :
    ∃ t', Step feed t t' := by
  cases hcontrol : t.control with
  | checking =>
    cases hk : t.cancelled with
    | true => exact ⟨_, .poll (.cancel hcontrol hk)⟩
    | false => exact ⟨_, .poll (.proceed hcontrol hk)⟩
  | looking =>
    by_cases hspare : t.isOpen = true ∧ t.busy < t.workers.length
    · exact ⟨_, .poll (.spare hcontrol hspare.1 hspare.2)⟩
    · exact ⟨_, .poll (.enough hcontrol hspare)⟩
  | giving => exact step_of_giving hcontrol
  | submitting job => exact ⟨_, .poll (.submit hcontrol)⟩
  | popping => exact step_of_popping hcontrol
  | receiving slot => exact step_of_receiving h hcontrol
  | joining answer => exact step_of_joining h hcontrol
  | returned answer => exact absurd hcontrol (hc answer)

end Threads

namespace Polling

variable {σ : Type} {feed : Feed σ}

theorem Reaches.exists_step {aligner : Aligner} {workers : Nat} (hw : 0 < workers) {s : σ}
    {p : Polling σ} (h : Reaches feed (new aligner workers s) p) : ∃ p', Step feed p p' := by
  obtain ⟨found, htracked⟩ := h.tracked hw
  obtain ⟨t, answers, refilling⟩ := p
  cases refilling with
  | false =>
    match hready : t.buffers.ready with
    | [] => exact ⟨_, .refill hready⟩
    | op :: ready => exact ⟨_, .take hready⟩
  | true =>
    by_cases hc : ∀ answer, t.control ≠ .returned answer
    · obtain ⟨t', hs⟩ : ∃ t', Threads.Step feed t t' := htracked.sound.exists_step hc
      exact ⟨_, .thread hs⟩
    push Not at hc
    obtain ⟨answer, hc⟩ := hc
    cases answer with
    | error fault => exact ⟨_, .failed hc⟩
    | ok _ =>
      match hready : t.buffers.ready with
      | [] => exact ⟨_, .dry hc hready⟩
      | op :: ready => exact ⟨_, .refilled hc hready⟩

end Polling

namespace Draining

variable {σ : Type} {feed : Feed σ}

theorem Reaches.exists_step {aligner : Aligner} {workers : Nat} (hw : 0 < workers) {s : σ}
    {d : Draining σ} (h : Reaches feed (new aligner workers s) d)
    (hd : ∀ answer, d.phase ≠ .done answer) : ∃ d', Step feed d d' := by
  obtain ⟨p, hs⟩ := h.polling.exists_step hw
  obtain ⟨t, drained, phase⟩ := d
  cases phase with
  | done answer => exact absurd rfl (hd answer)
  | polling =>
    cases hs with
    | thread hs => exact ⟨_, .thread hs⟩
    | take hready => exact ⟨_, .take hready⟩
    | refill hready => exact ⟨_, .refill hready⟩
  | refilling =>
    cases hs with
    | thread hs => exact ⟨_, .thread hs⟩
    | refilled hc hready => exact ⟨_, .refilled hc hready⟩
    | dry hc hready => exact ⟨_, .dry hc hready⟩
    | failed hc => exact ⟨_, .failed hc⟩

end Draining

end BytePatch
