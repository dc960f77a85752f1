import BytePatch.Proofs.Stage.Greedy
import BytePatch.Proofs.Stage.Regrouping
import BytePatch.Proofs.Stage.Window

/-! The layers that keep what they have in hand when a poll below them fails: those that merge
neighbours, those that compare pairs, and the pump. A failure that passes costs them nothing, wherever
it comes. -/
namespace BytePatch

variable {σ : Type} {below : Feed σ} {s : σ} {ops : List Op} {faults : List Fault}

namespace Pump

/-- What a pump has still to hand out: what it was filled with, and what is left below unless it was
drained. -/
private def Pays (below : Feed σ) (work : Work) (_pending : List Op) (s : σ) (answers : List Answer)
    (faults : List Fault) : Prop :=
  ∃ pump ops, work = .pump pump ∧ below.Recovers s (Answer.each ops) faults ∧
    (pump.drained = true → ops = [] ∧ faults = []) ∧ answers = Answer.each (pump.coming ++ ops)

private theorem fill_recovers {pump : Pump} (h : below.Recovers s (Answer.each ops) faults)
    (hdrained : pump.drained = true → ops = [] ∧ faults = []) :
    match pump.fill below s with
    | (.ok (), pump', s') => pump'.coming = pump.coming ++ ops ∧ faults = [] ∧
      below.Recovers s' [] []
    | (.error fault, pump', s') => ∃ rest later, pump'.coming ++ rest = pump.coming ++ ops ∧
      faults = fault :: later ∧ below.Recovers s' (Answer.each rest) later ∧
      pump'.drained = false := by
  unfold fill
  by_cases hd : pump.drained = true
  · rw [if_pos hd]
    obtain ⟨rfl, rfl⟩ := hdrained hd
    exact ⟨(List.append_nil _).symm, rfl, h⟩
  rw [if_neg hd]
  have key := h.drain
  generalize below.drain s = result at key
  obtain ⟨fault | _, out, s'⟩ := result
  · obtain ⟨rest, later, rfl, hfaults, hrest⟩ := key
    exact ⟨rest, later, List.append_assoc _ _ _, hfaults, hrest, by simpa using hd⟩
  · obtain ⟨rfl, hfaults, hrest⟩ := key
    exact ⟨rfl, hfaults, hrest⟩

/-- Failures or not, what comes out of a pump is what there is below it. -/
theorem recovers (h : below.Recovers s (Answer.each ops) faults) :
    (Layer.feed below).Recovers (.new (.pump .new), s) (Answer.each ops) faults := by
  refine Layer.recovers_of_resumes (Pays below) ?_ ⟨.new, ops, rfl, h, nofun, rfl⟩
  rintro _ pending s _ faults ⟨pump, ops, rfl, hr, hdrained, rfl⟩
  have key := fill_recovers hr hdrained
  simp only [Layer.shift, shift]
  generalize hfill : pump.fill below s = result at key
  obtain ⟨fault | _, pump', s'⟩ := result
  · obtain ⟨rest, later, hcoming, hfaults, hrest, hopen⟩ := key
    exact ⟨rfl, later, hfaults, pump', rest, rfl, hrest, by simp [hopen], by rw [hcoming]⟩
  · obtain ⟨hcoming, rfl, hrest⟩ := key
    rw [← hcoming]
    dsimp only
    cases hfirst : pump'.coming with
    | nil =>
      exact ⟨rfl, fun _ => rfl, pump', [], rfl, hrest, fun _ => ⟨rfl, rfl⟩, by rw [hfirst]; rfl⟩
    | cons op coming =>
      exact ⟨Answer.each (coming ++ []), by simp, _, [], rfl, hrest,
        fun _ => ⟨rfl, rfl⟩, rfl⟩

end Pump

section Compared
variable {aligner : Aligner}

/-- What polls answer at once for an entry that is made: where nothing comes of it they find nothing,
once. -/
def Entry.madeAtOnce (aligner : Aligner) (entry : Entry) : List Answer :=
  match entry.made aligner with
  | [] => [.ok none]
  | op :: script => Answer.each (op :: script)

/-- What a layer answers that compares at once, if it has room for every pair. -/
def Script.comparedAtOnce (aligner : Aligner) (ops : Script) : List Answer :=
  (Entry.cut ops).flatMap (Entry.madeAtOnce aligner)

theorem Script.comparedAtOnce_of_length_lt (aligner : Aligner) {ops : List Op}
    (h : ops.length < 2) : comparedAtOnce aligner ops = Answer.each ops := by
  rw [comparedAtOnce, Entry.cut_of_length_lt h, List.flatMap_map]
  exact List.map_eq_flatMap.symm

namespace Align

private def Pays (below : Feed σ) (aligner : Aligner) (work : Work) (pending : List Op) (s : σ)
    (answers : List Answer) (faults : List Fault) : Prop :=
  ∃ ops, work = .align aligner ∧ below.Recovers s (Answer.each ops) faults ∧
    (∀ entry ∈ Entry.cut (pending ++ ops), entry.Made aligner) ∧
    answers = Script.comparedAtOnce aligner (pending ++ ops)

private theorem pays_shift {pending : List Op} (h : below.Recovers s (Answer.each ops) faults)
    (hmade : ∀ entry ∈ Entry.cut (pending ++ ops), entry.Made aligner) :
    Layer.Resumes (Pays below aligner) (Script.comparedAtOnce aligner (pending ++ ops)) faults
      (Layer.shift below ⟨⟨[], pending⟩, .align aligner⟩ s) := by
  obtain ⟨answers, s', hpolls, hpulls⟩ := below.pulls_require pending s
  obtain ⟨rest, later, rfl, rfl, hrest, hdry⟩ := h.polls hpolls
  rw [← List.append_assoc] at hmade ⊢
  generalize hreq : below.require 2 pending s = result at hpulls
  cases hpulls with
  | @enough sent a b more hpending =>
    rw [Feed.given_each, hpending] at hmade ⊢
    rw [(Feed.failures_eq_nil_iff _).2 (Feed.clean_each sent)]
    obtain ⟨entry, pending', hhead, hcut⟩ := Entry.exists_head a b more
    have hentries := hcut Entry.cuts_cut rest
    rw [List.cons_append, List.cons_append, hentries] at hmade
    have hpays : Pays below aligner (.align aligner) pending' s'
        (Script.comparedAtOnce aligner (pending' ++ rest)) later :=
      ⟨rest, rfl, hrest, fun entry hm => hmade entry (List.mem_cons_of_mem _ hm), rfl⟩
    have hanswers : Script.comparedAtOnce aligner (a :: b :: more ++ rest) =
        entry.madeAtOnce aligner ++ Script.comparedAtOnce aligner (pending' ++ rest) := by
      rw [List.cons_append, List.cons_append, Script.comparedAtOnce, hentries]
      rfl
    rw [hanswers, Entry.madeAtOnce, Layer.shift_align aligner hreq hhead,
      (hmade entry List.mem_cons_self).compared]
    cases entry.made aligner with
    | nil => exact ⟨rfl, nofun, hpays⟩
    | cons op script => exact ⟨_, rfl, hpays⟩
  | @dry sent hshort =>
    obtain ⟨rfl, rfl⟩ := hdry (List.mem_append_right _ List.mem_cons_self)
    have hgiven : Feed.given (Answer.each sent ++ [.ok none]) = sent := by simp
    rw [(Feed.failures_eq_nil_iff _).2 (Feed.clean_each_dry sent), hgiven, List.append_nil,
      Script.comparedAtOnce_of_length_lt aligner hshort, Layer.shift_align_short aligner hreq]
    have hpays : Pays below aligner (.align aligner) [] s' [] [] := ⟨[], rfl, hrest, nofun, rfl⟩
    cases pending ++ sent with
    | nil => exact ⟨rfl, fun _ => rfl, hpays⟩
    | cons op more => exact ⟨[], (List.append_nil _).symm, hpays⟩
  | @failed sent fault hshort =>
    have hgiven : Feed.given (Answer.each sent ++ [.error fault]) = sent := by simp
    rw [hgiven] at hmade ⊢
    rw [Feed.failures_append, (Feed.failures_eq_nil_iff _).2 (Feed.clean_each sent),
      Layer.shift_align_failed aligner hreq]
    exact ⟨rfl, later, rfl, rest, rfl, hrest, hmade, rfl⟩

/-- Failures or not, what is compared at once is what there is below. -/
theorem recovers (h : below.Recovers s (Answer.each ops) faults)
    (hmade : ∀ entry ∈ Entry.cut ops, entry.Made aligner) :
    (Layer.feed below).Recovers (.new (.align aligner), s) (Script.comparedAtOnce aligner ops)
      faults := by
  refine Layer.recovers_of_resumes (Pays below aligner) ?_ ⟨ops, rfl, h, hmade, rfl⟩
  rintro _ pending s _ faults ⟨ops, rfl, hr, hmade, rfl⟩
  exact pays_shift hr hmade

end Align

namespace Pool

/-- The answers that a pool has still to give, and the failures on the way. -/
private def Pays (below : Feed σ) (aligner : Aligner) (work : Work) (pending : List Op) (s : σ)
    (answers : List Answer) (faults : List Fault) : Prop :=
  ∃ pool entries, work = .pool pool ∧ pool.aligner = aligner ∧
    pool.Cuts below pending s entries faults ∧ (∀ entry ∈ entries, entry.Made aligner) ∧
    answers = Answer.each (entries.flatMap (Entry.made aligner))

private theorem pays_shift {pool : Pool} {pending : List Op} {entries : List Entry}
    (hal : pool.aligner = aligner) (h : pool.Cuts below pending s entries faults)
    (hmade : ∀ entry ∈ entries, entry.Made aligner) :
    Layer.Resumes (Pays below aligner) (Answer.each (entries.flatMap (Entry.made aligner))) faults
      (Layer.shift below ⟨⟨[], pending⟩, .pool pool⟩ s) := by
  induction hn : entries.length using Nat.strongRecOn generalizing pool pending s entries with
  | _ n ih =>
  obtain ⟨result, pool', pending', s', later, hpump, hleft, hal', hend⟩ :=
    pump_recovers ⟨[], pending⟩ h
  have hal := hal'.trans hal
  rcases result with fault | _
  · rw [Layer.shift_pool_failed hpump]
    exact ⟨rfl, later, hend, pool', _, rfl, hal, hleft, hmade, rfl⟩
  obtain ⟨rfl, hdry⟩ := hend
  cases hchain : pool'.chain with
  | nil =>
    obtain ⟨rfl, hfaults⟩ := hdry hchain
    rw [Layer.shift_pool_dry hpump hchain]
    exact ⟨rfl, fun _ => hfaults, pool', [], rfl, hal, hleft, hmade, rfl⟩
  | cons entry chain =>
    obtain ⟨ops, hr, hst, hends, rfl⟩ := hleft
    rw [hchain] at hn hmade ⊢
    have hleft : Cuts below { pool' with chain } pending' s'
        (chain ++ Entry.cut (pending' ++ ops)) later :=
      ⟨ops, hr, ⟨hst.staffed, hst.going, hst.closed⟩, hends, rfl⟩
    have hmade' : ∀ entry ∈ chain ++ Entry.cut (pending' ++ ops), entry.Made aligner :=
      fun entry hm => hmade entry (List.mem_cons_of_mem _ hm)
    rw [List.cons_append, List.flatMap_cons, Layer.shift_pool hpump hal hchain,
      (hmade entry List.mem_cons_self).compared]
    cases entry.made aligner with
    -- Nothing is ready, so the refill begins again, with an entry less to come.
    | nil => exact ih _ (hn ▸ Nat.lt_succ_self _) hal hleft hmade' rfl
    | cons op script =>
      refine ⟨_, ?_, _, _, rfl, hal, hleft, hmade', rfl⟩
      rw [Answer.each, List.map_append]

/-- Failures or not, what a pool compares is what there is below, however it is served. -/
theorem recovers (h : below.Recovers s (Answer.each ops) faults)
    (hmade : ∀ entry ∈ Entry.cut ops, entry.Made aligner) {workers : Nat} (hworkers : 0 < workers)
    (early : Nat → Bool) :
    (Layer.feed below).Recovers (.new (.pool (.new aligner workers early)), s)
      (Answer.each (Script.compared aligner ops)) faults := by
  refine Layer.recovers_of_resumes (Pays below aligner) ?_ ⟨.new aligner workers early,
    Entry.cut ops, rfl, rfl, ⟨ops, h, ⟨hworkers, rfl, nofun⟩, nofun, rfl⟩, hmade, rfl⟩
  rintro _ pending s _ faults ⟨pool, entries, rfl, hal, hleft, hmade, rfl⟩
  exact pays_shift hal hleft hmade

end Pool

end Compared

end BytePatch
