import BytePatch.Proofs.Pipeline.Saturation
import BytePatch.Proofs.Stage.Greedy
import BytePatch.Proofs.Threads.Progress
import BytePatch.Proofs.Threads.Termination

/-! Pairs compared by threads side by side come out as they do when they are compared one after
another, whatever the order in which the threads go on. -/
namespace BytePatch

namespace Draining

variable {σ : Type}

/-- In whatever order the threads go on, a drain comes to its end, and to the same end. -/
structure Settles (feed : Feed σ) (start : Draining σ) (answer : Except Fault Unit)
    (ops : List Op) : Prop where
  agrees : ∀ d, Reaches feed start d → ∀ answer', d.phase = .done answer' →
    answer' = answer ∧ d.drained = ops
  /-- Before the end some thread can go on. -/
  proceeds : ∀ d, Reaches feed start d → (∀ answer', d.phase ≠ .done answer') →
    ∃ d', Step feed d d'
  /-- There is no endless row of steps. -/
  ends : Acc (fun later earlier => Step feed earlier later) start

/-- Threads come to what the pool comes to on all schedules. -/
theorem settles_of_drain {feed : Feed σ} {aligner : Aligner} {workers : Nat} (hw : 0 < workers)
    {s : σ} {answer : Except Fault Unit} {ops : List Op}
    (h : ∀ early, ∃ last, (Layer.feed feed).drain (.new (.pool (.new aligner workers early)), s) =
      (answer, ops, last)) :
    Settles feed (new aligner workers s) answer ops where
  agrees d hr answer' hd := by
    obtain ⟨early, last, hdrain⟩ := hr.drain hw hd
    obtain ⟨last', hdrain'⟩ := h early
    cases hdrain.symm.trans hdrain'
    exact ⟨rfl, rfl⟩
  proceeds d hr hd := hr.exists_step hw hd
  ends := Reaches.refl.acc hw

end Draining

namespace Entry

theorem made_of_fits {ops : List Op} {aligner : Aligner} (hcount : aligner.capacity ≤ Aligner.maxCells)
    (hfits : ∀ orig target, .pair orig target ∈ cut ops →
      Aligner.cells orig target ≤ aligner.capacity) :
    ∀ entry ∈ cut ops, entry.Made aligner := by
  rintro entry hm orig target rfl
  have hcells := hfits orig target hm
  exact Aligner.align_of_fits (Nat.le_min.2 ⟨hcells, hcells.trans hcount⟩)

theorem made_ne_nil {ops : List Op} (hvalid : ∀ op ∈ ops, op.Valid) {method : Method}
    {divider : Divider} {aligner : Aligner} (hstrategy : aligner.strategy = method.strategyWith divider)
    (hkept : ∀ orig target, .pair orig target ∈ cut ops → ¬ method.Loses orig target) :
    ∀ entry ∈ cut ops, entry.made aligner ≠ [] := by
  intro entry hm
  cases entry with
  | single op => exact List.cons_ne_nil _ _
  | pair orig target =>
    have horig : orig ≠ [] := by
      rintro rfl
      exact absurd (hvalid _ (mem_of_pair_mem_cut hm).1).1 (Nat.lt_irrefl 0)
    rw [made, hstrategy]
    exact method.script_ne_nil divider horig (hkept orig target hm)

end Entry

namespace Queue

variable {source : Queue}

/-- With no pair too large, what a source gives comes out the same from a pool on every schedule and
from threads in every order, and it is what comes out if each pair is compared at once, unless a pair
is lost, at prices that cannot be counted. -/
theorem drain_pool_eq {ops : Script} (hsource : source.Delivers ops) (hvalid : ∀ op ∈ ops, op.Valid)
    {chunk : Nat} (hchunk : chunk + 1 < 2 ^ 32) (method : Method) (divider : Divider) {workers : Nat}
    (hworkers : 1 ≤ workers)
    (hfits : ∀ orig target, .pair orig target ∈ Entry.cut ops →
      Aligner.cells orig target ≤ (chunk + 1) * (chunk + 1)) :
    ∃ aligner, Aligner.forChunk chunk method divider = .ok aligner ∧ ∃ out,
      Draining.Settles (Stack.feed Source.base source.depth) (.new aligner workers source.stack)
        (.ok ()) out ∧
      (∀ early, ∃ after,
        (source.under (.pool (.new aligner workers early))).drain = (.ok (), out, after)) ∧
      ((∀ orig target, .pair orig target ∈ Entry.cut ops → ¬ method.Loses orig target) →
        ∃ after, (source.under (.align aligner)).drain = (.ok (), out, after)) := by
  have haligner := Aligner.forChunk_of_lt hchunk method divider
  have hmade : ∀ entry ∈ Entry.cut ops,
      entry.Made ⟨method.strategyWith divider, (chunk + 1) * (chunk + 1)⟩ :=
    Entry.made_of_fits (Aligner.le_maxCells_of_lt hchunk) hfits
  have hpool := delivers_pool hsource hmade hworkers
  refine ⟨_, haligner, _, ?_, fun early => (hpool early).drain, fun hkept => ?_⟩
  · exact Draining.settles_of_drain hworkers fun early => (hpool early).yields.drain
  · exact (delivers_align hsource hmade (Entry.made_ne_nil hvalid rfl hkept)).drain

/-- Two pairs, the second one a match in part, between ops that keep their place. -/
def twoPairs : Script :=
  [.copy 2, .delete [1], .insert [2, 3], .skip 4, .insert [5, 6], .delete [5, 7], .copy 1]

private theorem eq_of_mem_twoPairs {orig target : Bytes}
    (h : .pair orig target ∈ Entry.cut twoPairs) :
    orig = [1] ∧ target = [2, 3] ∨ orig = [5, 7] ∧ target = [5, 6] := by
  simpa [twoPairs, Entry.cut, Op.pair?] using h

/-- With a worker for each pair. -/
theorem drain_pool_eq_two : ∃ aligner, Aligner.forChunk 8 .inertial = .ok aligner ∧ ∃ out,
    Draining.Settles (Stack.feed Source.base 0) (.new aligner 2 (.ofList twoPairs)) (.ok ()) out ∧
    (∀ early, ∃ after, ((ofSource (.ofList twoPairs)).under (.pool (.new aligner 2 early))).drain =
      (.ok (), out, after)) ∧
    ∃ after, ((ofSource (.ofList twoPairs)).under (.align aligner)).drain = (.ok (), out, after) := by
  have hfits : ∀ orig target, .pair orig target ∈ Entry.cut twoPairs →
      Aligner.cells orig target ≤ (8 + 1) * (8 + 1) := by
    intro orig target hm
    rcases eq_of_mem_twoPairs hm with ⟨rfl, rfl⟩ | ⟨rfl, rfl⟩ <;> decide
  obtain ⟨aligner, haligner, out, hsettles, hpool, halign⟩ :=
    drain_pool_eq (delivers_list twoPairs) (by decide) (by decide) .inertial .myers
      (Nat.le_add_left 1 1) hfits
  refine ⟨aligner, haligner, out, hsettles, hpool, halign fun orig target hm hlost => ?_⟩
  rcases eq_of_mem_twoPairs hm with ⟨rfl, rfl⟩ | ⟨rfl, rfl⟩ <;>
    exact absurd hlost.length_le (by decide)

private theorem drain_pool_of_lost {aligner : Aligner} {orig target : Bytes}
    (h : aligner.align orig target = .ok []) (op : Op) {workers : Nat} (hworkers : 1 ≤ workers)
    (early : Nat → Bool) :
    ∃ after, ((ofSource (.ofList [.delete orig, .insert target, op])).under
      (.pool (.new aligner workers early))).drain = (.ok (), [op], after) := by
  obtain ⟨-, hscript⟩ := Aligner.align_eq_ok h
  have hcut : Entry.cut [.delete orig, .insert target, op] = [.pair orig target, .single op] :=
    Entry.cut_pair rfl [op]
  have hmade : ∀ entry ∈ Entry.cut [.delete orig, .insert target, op], entry.Made aligner := by
    rw [hcut, List.forall_mem_cons, List.forall_mem_singleton]
    refine ⟨?_, nofun⟩
    rintro _ _ ⟨⟩
    rw [h, hscript]
  have hcompared : Script.compared aligner [.delete orig, .insert target, op] = [op] := by
    rw [Script.compared, hcut, List.flatMap_cons, Entry.made, ← hscript]
    rfl
  have hdrain := (delivers_pool (delivers_list _) hmade hworkers early).drain
  rwa [hcompared] at hdrain

private theorem eq_of_mem_lost {orig target orig' target' : Bytes} {run : Nat}
    (h : .pair orig' target' ∈ Entry.cut [.delete orig, .insert target, .copy run]) :
    orig' = orig ∧ target' = target := by
  simpa [Entry.cut, Op.pair?] using h

/-- Both drains succeed, and a copy is what the one gives and the other does not. -/
theorem drain_pool_ne_flooding :
    ∃ aligner, Aligner.forChunk (2 ^ 17) .inertial = .ok aligner ∧
      (∀ op ∈ Pipeline.flooding ++ [.copy 1], op.Valid) ∧
      (∀ orig target, .pair orig target ∈ Entry.cut (Pipeline.flooding ++ [.copy 1]) →
        Aligner.cells orig target ≤ (2 ^ 17 + 1) * (2 ^ 17 + 1)) ∧
      (∃ after, ((ofSource (.ofList (Pipeline.flooding ++ [.copy 1]))).under
        (.align aligner)).drain = (.ok (), [], after)) ∧
      ∀ early, ∃ after, ((ofSource (.ofList (Pipeline.flooding ++ [.copy 1]))).under
        (.pool (.new aligner 1 early))).drain = (.ok (), [.copy 1], after) := by
  have hgraph : Aligner.forChunk (2 ^ 17) .inertial = .ok Pipeline.graphing.aligner :=
    (Pipeline.graph_of_lt (show Pipeline.graphing.chunk + 1 < 2 ^ 32 by decide)).1
  obtain ⟨after, hdrain, -⟩ := Align.exists_drain_lost Pipeline.align_flooding (.copy 1)
  refine ⟨_, hgraph, ?_, fun orig target hm => ?_, ⟨after, hdrain⟩,
    drain_pool_of_lost Pipeline.align_flooding (.copy 1) Nat.one_pos⟩
  · exact List.forall_mem_append.2 ⟨Pipeline.valid_flooding, by decide⟩
  · obtain ⟨rfl, rfl⟩ := eq_of_mem_lost hm
    rw [Aligner.cells, List.length_replicate]
    decide

end Queue

end BytePatch
