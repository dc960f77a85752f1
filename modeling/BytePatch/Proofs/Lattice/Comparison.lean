import Mathlib.Algebra.Ring.Nat
import BytePatch.Proofs.Lattice.Reach
import BytePatch.Proofs.Lattice.Scripts
import BytePatch.Proofs.Stage.Undo

/-! What a graph makes of a pair that fits it, by whatever method and after whatever pairs before: a
script that goes through all of the one string and writes the other, and that can be taken back. -/
namespace BytePatch

/-- What is asked of the script of a comparison. -/
structure Script.Aligns (ops : Script) (orig target : Bytes) : Prop where
  valid : ∀ op ∈ ops, op.Valid
  replay_eq : ops.replay orig = .ok target
  /-- Copies and deletes together use up the original. -/
  reach_eq : ops.reach = orig.length
  /-- What a delete remembers stands in the original where the delete is. -/
  remembers : ops.Remembers orig
  /-- Every delete remembers its bytes. -/
  unforgotten : ops.Unforgotten
  alternates : ops.Alternates

/-- Strings that are not too long leave room for the price of some path. -/
theorem Method.counts_of_short (method : Method) (divider : Divider) (orig : Bytes) {target : Bytes}
    (h : target.length < 2 ^ 31) : (method.strategyWith divider).Counts orig target := by
  cases method with
  | edit => exact Nat.lt_trans h (by decide)
  | inertial =>
    have hprice : target.length + 4 < Priced.ceiling :=
      Nat.lt_trans (Nat.add_lt_add_right h 4) (by decide)
    exact Nat.lt_of_le_of_lt (Priced.cost_way_encoding_le orig target) hprice
  | myers => trivial

theorem Aligner.cells_le {bound : Nat} {orig target : Bytes} (ho : orig.length ≤ bound)
    (ht : target.length ≤ bound) : cells orig target ≤ (bound + 1) * (bound + 1) :=
  Nat.mul_le_mul (Nat.succ_le_succ ho) (Nat.succ_le_succ ht)

theorem Aligner.cells_le_maxCells {orig target : Bytes} (ho : orig.length < 2 ^ 31)
    (ht : target.length < 2 ^ 31) : cells orig target ≤ maxCells :=
  (cells_le ho.le ht.le).trans (by decide)

theorem Aligner.cells_le_maxCells_of_counted {orig target : Bytes}
    (h : orig.length + target.length < Nearest.farthest) : cells orig target ≤ maxCells := by
  have hfarthest : Nearest.farthest = 2 ^ 32 - 1 := rfl
  have ho : orig.length + 1 ≤ 2 ^ 32 - 1 := by omega
  have ht : target.length + 1 ≤ 2 ^ 32 - 1 := by omega
  exact Nat.le_trans (Nat.mul_le_mul ho ht) (by decide)

/-- The cells for a chunk can be counted just if its sides can be counted in 32 bits. -/
theorem Aligner.capacityFor_eq (chunk : Nat) :
    capacityFor chunk =
      if chunk + 1 < 2 ^ 32 then .ok ((chunk + 1) * (chunk + 1)) else .error .overflow := by
  have hsize : UInt64.size = 2 ^ 32 * 2 ^ 32 := rfl
  have hiff : (chunk + 1) * (chunk + 1) < UInt64.size ↔ chunk + 1 < 2 ^ 32 :=
    hsize ▸ Nat.mul_self_lt_mul_self_iff
  rw [capacityFor, ite_congr (propext hiff) (fun _ => rfl) fun _ => rfl]

theorem Aligner.forChunk_eq_ok_iff {chunk : Nat} {method : Method} {divider : Divider}
    {aligner : Aligner} :
    forChunk chunk method divider = .ok aligner ↔ chunk + 1 < 2 ^ 32 ∧
      aligner = ⟨method.strategyWith divider, (chunk + 1) * (chunk + 1)⟩ := by
  rw [forChunk, capacityFor_eq]
  split <;> simp_all [Functor.map, Except.map, eq_comm]

theorem Aligner.forChunk_of_lt {chunk : Nat} (h : chunk + 1 < 2 ^ 32) (method : Method)
    (divider : Divider) :
    forChunk chunk method divider =
      .ok ⟨method.strategyWith divider, (chunk + 1) * (chunk + 1)⟩ :=
  forChunk_eq_ok_iff.2 ⟨h, rfl⟩

theorem Aligner.le_maxCells_of_lt {chunk : Nat} (h : chunk + 1 < 2 ^ 32) :
    (chunk + 1) * (chunk + 1) ≤ maxCells :=
  (Nat.mul_le_mul (Nat.le_sub_one_of_lt h) (Nat.le_sub_one_of_lt h)).trans (by decide)

theorem Aligner.checkCapacity_eq_ok_iff {aligner : Aligner} (hcount : aligner.capacity ≤ maxCells)
    (orig target : Bytes) :
    aligner.checkCapacity orig target = .ok () ↔ cells orig target ≤ aligner.capacity := by
  rw [checkCapacity, Nat.min_eq_left hcount]
  split <;> simp_all

/-- A path that leads all the way is all that a script needs to be one for the pair. -/
theorem Path.aligns_scriptBack {trail : Path} {orig target : Bytes}
    (ho : orig.length < UInt64.size) (ht : target.length < UInt64.size)
    (h : trail.Joins orig.reverse target.reverse) :
    (scriptBack trail).Aligns orig target := by
  have hedits := edits_scriptBack h
  have hplain {op : Op} (hop : op ∈ scriptBack trail) :
      0 < op.run ∧ ∀ run, op ≠ .skip run := plain_scriptBack _ hop
  refine ⟨fun op hop => ⟨(hplain hop).1, ?_⟩, ?_, hedits.reach_eq, ?_, ?_, ?_⟩
  · exact Nat.lt_of_le_of_lt (hedits.run_le hop) (Nat.max_lt.2 ⟨ho, ht⟩)
  · have hplay := hedits.play []
    rw [List.append_nil] at hplay
    simp [Script.replay, hplay, Functor.map, Except.map]
  · simpa using hedits.remembers []
  · exact fun run hmem => (hplain hmem).2 run rfl
  · exact alternates_scriptBack _

theorem Strategy.aligns_script {strategy : Strategy} {orig target : Bytes}
    (ho : orig.length < UInt64.size) (ht : target.length < UInt64.size)
    (h : strategy.Counts orig target) : (strategy.script orig target).Aligns orig target :=
  Path.aligns_scriptBack ho ht (joins_trail h)

namespace Method

/-- What every path between the two strings costs cannot be told from what no path costs. -/
def Loses (method : Method) (orig target : Bytes) : Prop :=
  method = .inertial ∧ Priced.ceiling ≤ (Priced.way .encoding orig target).cost

/-- Only an insert that comes close to the largest number of 32 bits is lost. -/
theorem Loses.length_le {method : Method} {orig target : Bytes} (h : method.Loses orig target) :
    Priced.ceiling ≤ target.length + 4 :=
  h.2.trans (Priced.cost_way_encoding_le orig target)

/-- What has room for no more than that insert is lost. -/
theorem loses_of_length {orig target : Bytes} (h : orig.length + Priced.ceiling ≤ target.length) :
    inertial.Loses orig target :=
  ⟨rfl, Priced.ceiling_le_cost_way h⟩

theorem loses_strategyWith_iff (method : Method) (divider : Divider) (orig target : Bytes) :
    (method.strategyWith divider).Loses orig target ↔ method.Loses orig target := by
  cases method with
  | inertial => exact (and_iff_right rfl).symm
  | edit | myers => exact ⟨False.elim, fun h => nomatch h.1⟩

theorem Loses.script_eq_nil {method : Method} (divider : Divider) {orig target : Bytes}
    (h : method.Loses orig target) : (method.strategyWith divider).script orig target = [] :=
  Strategy.Loses.script_eq_nil ((loses_strategyWith_iff method divider orig target).2 h)

theorem script_ne_nil {method : Method} (divider : Divider) {orig target : Bytes}
    (horig : orig ≠ []) (h : ¬ method.Loses orig target) :
    (method.strategyWith divider).script orig target ≠ [] :=
  Strategy.script_ne_nil horig (mt (loses_strategyWith_iff method divider orig target).1 h)

end Method

namespace Graph

theorem compute_of_fits {graph : Graph} {orig target : Bytes}
    (h : Aligner.cells orig target ≤ min graph.aligner.capacity Aligner.maxCells) :
    graph.compute orig target = (.ok (), ⟨graph.aligner, some (orig, target)⟩) := by
  rw [compute, Aligner.checkCapacity, if_pos h]

/-- Whatever a graph was used for before, it finds a script for each pair that it has room for. The
strings are short enough for the prices of their paths to be counted. -/
theorem compute_aligns (method : Method) (divider : Divider) (capacity : Nat)
    (before : Option (Bytes × Bytes)) {orig target : Bytes} (ho : orig.length < 2 ^ 31)
    (ht : target.length < 2 ^ 31) (hfits : Aligner.cells orig target ≤ capacity) :
    ∃ graph ops,
      compute ⟨⟨method.strategyWith divider, capacity⟩, before⟩ orig target = (.ok (), graph) ∧
      graph.script = .ok ops ∧ graph.scriptBack = .ok ops.reverse ∧ ops.Aligns orig target := by
  have hcells := Nat.le_min.2 ⟨hfits, Aligner.cells_le_maxCells ho ht⟩
  refine ⟨_, _, compute_of_fits hcells, rfl, rfl, ?_⟩
  exact Strategy.aligns_script (Nat.lt_trans ho (by decide)) (Nat.lt_trans ht (by decide))
    (method.counts_of_short divider orig ht)

/-- A pair with bytes to keep, to delete and to insert, on a graph that has just been used for a
larger one. -/
theorem compute_aligns_reused : ∃ graph ops,
    compute ⟨⟨Method.strategyWith .myers .inertial, 20⟩, some ([1, 2, 3], [4, 5, 6, 7])⟩
      [1, 2, 3] [1, 9, 3] = (.ok (), graph) ∧
    graph.script = .ok ops ∧ graph.scriptBack = .ok ops.reverse ∧ ops.Aligns [1, 2, 3] [1, 9, 3] :=
  compute_aligns .inertial .myers 20 _ (by decide) (by decide) (by decide)

end Graph

end BytePatch
