import BytePatch.Proofs.Queue.Ledger
import BytePatch.Stage.Pointwise
import BytePatch.Stage.Pump

/-! Refills of the two layers that hand ops on one for one: deletes made to forget, and a whole
script drained before the first op comes out. -/
namespace BytePatch

variable {σ : Type} {below : Feed σ} {R : Refinement} {Fails : Fault → Prop}

theorem Pointwise.refills_forget (L : below.Ledger R Fails)
    (hw : ∀ op : Op, R.Fit [op] → R.Rel [op] [op.forget]) {s : σ} (hs : L.Sound s) :
    L.Refills (fun pending _ => pending = []) (L.content s)
      ((shift forget below () ⟨[], []⟩ s).1, (shift forget below () ⟨[], []⟩ s).2.2) := by
  unfold shift
  rcases hp : below.poll s with ⟨fault | _ | op, s'⟩
  · exact L.failed hs hp
  · obtain ⟨hs', hc, hr⟩ := L.dry hs hp
    exact ⟨hs', rfl, by simpa [hc] using hr, fun _ => ⟨rfl, hc⟩⟩
  · obtain ⟨hs', hr⟩ := L.op hs hp
    have hop := hw op (R.head (R.fit hr (L.fit hs)))
    refine ⟨hs', rfl, ?_, by simp [Buffers.pushReady]⟩
    simpa [Buffers.pushReady] using R.trans hr (R.append hop (R.refl (L.content s')))

namespace Pump

/-- What is true of a pump between two refills, given its pending ops and what is still below. -/
structure Steady (pump : Pump) (pending rest : Script) : Prop where
  pending_eq : pending = []
  drained : pump.drained = true → rest = []

private theorem fill_holds (L : below.Ledger R Fails) {pump : Pump} {s : σ} (hs : L.Sound s)
    (hd : pump.drained = true → L.content s = []) :
    match pump.fill below s with
    | (.error fault, _, _) => Fails fault
    | (.ok (), pump', s') => L.Sound s' ∧ L.content s' = [] ∧
      R.Rel (pump.coming ++ L.content s) pump'.coming := by
  unfold fill
  by_cases h : pump.drained = true
  · rw [if_pos h]
    exact ⟨hs, hd h, by simpa [hd h] using R.refl _⟩
  · rw [if_neg h]
    have key := L.drain hs
    rcases hm : below.drain s with ⟨fault | _, ops, s'⟩
    · rw [hm] at key
      exact key
    · rw [hm] at key
      exact ⟨key.1, key.2.1, R.prepend pump.coming key.2.2⟩

theorem shift_holds (L : below.Ledger R Fails) {pump : Pump} {s : σ} (hs : L.Sound s)
    (hst : pump.Steady [] (L.content s)) :
    match shift below pump ⟨[], []⟩ s with
    | (.error fault, _, _, _) => Fails fault
    | (.ok (), pump', buffers', s') => L.Sound s' ∧ pump'.Steady buffers'.pending (L.content s') ∧
      R.Rel (pump.coming ++ L.content s)
        (buffers'.ready ++ (pump'.coming ++ (buffers'.pending ++ L.content s'))) ∧
      (buffers'.ready = [] → pump'.coming = [] ∧ buffers'.pending = [] ∧ L.content s' = []) := by
  have key := fill_holds L hs hst.drained
  unfold shift
  rcases hm : pump.fill below s with ⟨fault | _, pump', s'⟩
  · rw [hm] at key
    exact key
  rw [hm] at key
  obtain ⟨hs', hc, hr⟩ := key
  dsimp only
  cases hcoming : pump'.coming with
  | nil =>
    rw [hcoming] at hr
    exact ⟨hs', ⟨rfl, fun _ => hc⟩, by simpa [hcoming, hc] using hr, fun _ => ⟨hcoming, rfl, hc⟩⟩
  | cons op coming =>
    rw [hcoming] at hr
    exact ⟨hs', ⟨rfl, fun _ => hc⟩, by simpa [Buffers.pushReady, hc] using hr, by
      simp [Buffers.pushReady]⟩

end Pump

end BytePatch
