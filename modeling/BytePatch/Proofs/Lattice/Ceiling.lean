import BytePatch.Proofs.Lattice.Optimum

/-! How dear paths may be. A table of prices gives a script for each pair that has one path below
the ceiling of costs. Where all paths come up to it they are as good as none, and nothing is left of
the pair in the script. -/
namespace BytePatch

namespace PriceTable

/-- Some path between the two strings costs less than an unreachable place does. -/
def Affords (prices : PriceTable) (orig target : Bytes) : Prop :=
  ∃ path : Path, path.Joins orig target ∧ prices.total path < Priced.ceiling

end PriceTable

namespace Priced

variable (prices : PriceTable)

/-- The cost that is found tells whether there is such a path. -/
theorem affords_iff (orig target : Bytes) :
    prices.Affords orig target ↔ (way prices orig target).cost < ceiling := by
  constructor
  · rintro ⟨path, hjoins, hlt⟩
    exact Nat.lt_of_le_of_lt (cost_way_le_total prices hjoins) hlt
  · intro h
    refine ⟨path prices orig target, joins_path prices h, ?_⟩
    rwa [total_path prices h]

theorem aligns_script {orig target : Bytes} (ho : orig.length < UInt64.size)
    (ht : target.length < UInt64.size) (h : prices.Affords orig target) :
    ((Strategy.cheapest prices).script orig target).Aligns orig target :=
  Path.aligns_scriptBack ho ht (joins_trail prices ((affords_iff prices orig target).1 h))

theorem script_eq_nil {orig target : Bytes} (h : ¬ prices.Affords orig target) :
    (Strategy.cheapest prices).script orig target = [] := by
  have hc := Nat.le_of_not_lt (mt (affords_iff prices orig target).2 h)
  change Path.scriptBack (trail prices orig target) = []
  rw [trail_eq_nil prices hc]
  rfl

theorem cost_way_eq_ceiling {orig target : Bytes} (h : ¬ prices.Affords orig target) :
    (way prices orig target).cost = ceiling :=
  Nat.le_antisymm (cost_way_le_ceiling prices orig target)
    (Nat.le_of_not_lt (mt (affords_iff prices orig target).2 h))

end Priced

theorem Aligner.length_lt_of_cells {orig target : Bytes} {capacity : Nat}
    (hfits : cells orig target ≤ capacity) : orig.length < capacity ∧ target.length < capacity :=
  ⟨Nat.lt_of_lt_of_le (Nat.lt_of_lt_of_le (Nat.lt_succ_self _) (Nat.le_mul_of_pos_right _
      (Nat.succ_pos _))) hfits,
    Nat.lt_of_lt_of_le (Nat.lt_of_lt_of_le (Nat.lt_succ_self _) (Nat.le_mul_of_pos_left _
      (Nat.succ_pos _))) hfits⟩

/-- Whatever the prices are, a pair that fits is computed, and its script makes the one string of the
other if some path is below the ceiling. If none is, the script is empty without an error, and is
right only where there is nothing to make. -/
theorem Graph.replay_compute (prices : PriceTable) {capacity : Nat} (hword : capacity < UInt64.size)
    (before : Option (Bytes × Bytes)) {orig target : Bytes}
    (hfits : Aligner.cells orig target ≤ capacity) :
    ∃ graph ops, compute ⟨⟨.cheapest prices, capacity⟩, before⟩ orig target = (.ok (), graph) ∧
      graph.script = .ok ops ∧
      (prices.Affords orig target → ops.Aligns orig target) ∧
      (¬ prices.Affords orig target → ops = [] ∧ graph.cost = .ok (2 ^ 32 - 1)) ∧
      (ops.replay orig = .ok target ↔ prices.Affords orig target ∨ target = []) := by
  have hcells : Aligner.cells orig target ≤ min capacity Aligner.maxCells :=
    Nat.le_min.2 ⟨hfits, Nat.le_sub_one_of_lt (Nat.lt_of_le_of_lt hfits hword)⟩
  obtain ⟨ho, ht⟩ := Aligner.length_lt_of_cells hfits
  have haligns (h : prices.Affords orig target) :=
    Priced.aligns_script prices (ho.trans hword) (ht.trans hword) h
  refine ⟨_, _, compute_of_fits hcells, rfl, haligns, fun h => ?_, fun hreplay => ?_, ?_⟩
  · exact ⟨Priced.script_eq_nil prices h, congrArg Except.ok (Priced.cost_way_eq_ceiling prices h)⟩
  · refine or_iff_not_imp_left.2 fun h => ?_
    rw [Priced.script_eq_nil prices h] at hreplay
    cases hreplay
    rfl
  · rintro (h | rfl)
    · exact (haligns h).replay_eq
    · by_cases h : prices.Affords orig []
      · exact (haligns h).replay_eq
      · rw [Priced.script_eq_nil prices h]
        rfl

/-- A table in which a step and its end come to 2 ^ 32. -/
def PriceTable.steep : PriceTable := fun _ _ => 2147483648

/-- A byte to insert, at prices that let any step be told from none, but not with its end. -/
theorem Graph.replay_compute_steep : ∃ graph ops,
    compute ⟨⟨.cheapest .steep, 4⟩, some ([1], [2])⟩ [] [98] = (.ok (), graph) ∧
    graph.script = .ok ops ∧
    (PriceTable.steep.Affords [] [98] → ops.Aligns [] [98]) ∧
    (¬ PriceTable.steep.Affords [] [98] → ops = [] ∧ graph.cost = .ok (2 ^ 32 - 1)) ∧
    (ops.replay [] = .ok [98] ↔ PriceTable.steep.Affords [] [98] ∨ ([98] : Bytes) = []) :=
  replay_compute .steep (by decide) _ (by decide)

/-- The byte is lost, and no error says so. -/
theorem Graph.compute_loses_insert : ∃ graph,
    compute (.new ⟨.cheapest .steep, 4⟩) [] [98] = (.ok (), graph) ∧
    Aligner.cells [] [98] ≤ 4 ∧ graph.script = .ok [] ∧ graph.cost = .ok (2 ^ 32 - 1) ∧
    Script.replay [] [] ≠ .ok [98] :=
  ⟨_, rfl, by decide, by decide, by decide, by decide⟩

end BytePatch
