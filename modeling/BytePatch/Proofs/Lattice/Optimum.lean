import Mathlib.Order.Minimal
import BytePatch.Proofs.Lattice.Comparison

/-! Prices read off a path from its start on. Under any table of prices the cost that is found is
that of a cheapest path, up to the largest number there is for costs, and below that number the
steps of the script that is found come to it exactly. -/
namespace BytePatch

namespace PriceTable

/-- What the rest of a path costs after a step of the given kind, its end included. -/
def going (prices : PriceTable) (last : Kind) : Path → Nat
  | [] => (prices last .stop).toNat
  | step :: path => (prices last step.kind).toNat + going prices step.kind path

/-- What a path costs from its start to its end. -/
def total (prices : PriceTable) (path : Path) : Nat := prices.going .stop path

end PriceTable

namespace Priced

variable (prices : PriceTable)

section Turning

/-- The kind of the latest step, and what has been spent once that step is taken. -/
private def latest : Path → Kind
  | [] => .stop
  | step :: _ => step.kind

private def spent : Path → Nat
  | [] => 0
  | step :: trail => price prices trail step.kind

private theorem price_eq (trail : Path) (next : Kind) :
    price prices trail next = spent prices trail + (prices (latest trail) next).toNat := by
  cases trail with
  | nil => simp [price, spent, latest]
  | cons step trail => rfl

private theorem price_turned (path trail : Path) :
    price prices (path.reverse ++ trail) .stop =
      spent prices trail + prices.going (latest trail) path := by
  induction path generalizing trail with
  | nil => exact price_eq prices trail .stop
  | cons step path ih =>
    rw [List.reverse_cons, List.append_assoc, List.singleton_append, ih, spent, price_eq, latest,
      PriceTable.going, Nat.add_assoc]

theorem price_reverse (path : Path) : price prices path.reverse .stop = prices.total path := by
  simpa [spent, latest, PriceTable.total] using price_turned prices path []

end Turning

private theorem leave_cases (delete insert copy : Arrival) (next : Kind) :
    leave prices (.inner delete insert copy) next = nowhere ∨
      leave prices (.inner delete insert copy) next = after prices .delete next delete ∨
      leave prices (.inner delete insert copy) next = after prices .insert next insert ∨
      leave prices (.inner delete insert copy) next = after prices .copy next copy := by
  simp only [leave]
  cases hb : Arrival.cheapest? _ with
  | none => exact .inl rfl
  | some best =>
    have hm := (List.mem_filter.1 (Arrival.mem_of_cheapest? hb)).1
    exact .inr (by simpa using hm)

/-- Below the ceiling, what leaving a cell costs is the price of the path it is left by. -/
private def Exact (cell : Cell) : Prop := ∀ next, (leave prices cell next).cost < ceiling →
  price prices (leave prices cell next).trail next = (leave prices cell next).cost

private theorem price_after {make : UInt8 → Step} {last next : Kind}
    {from? : Option (UInt8 × Cell)} (hkind : ∀ byte, (make byte).kind = last)
    (hexact : ∀ byte cell, from? = some (byte, cell) → Exact prices cell)
    (hc : (after prices last next (extend prices make last from?)).cost < ceiling) :
    price prices (after prices last next (extend prices make last from?)).trail next =
      (after prices last next (extend prices make last from?)).cost := by
  cases from? with
  | none => exact absurd hc (by simp only [after, extend, nowhere]; omega)
  | some pair =>
    obtain ⟨byte, cell⟩ := pair
    simp only [after, extend] at hc ⊢
    have hway := hexact byte cell rfl last (by omega)
    rw [price, hkind, hway]
    omega

private theorem exact : (lattice prices).Invariant fun _ _ cell => Exact prices cell where
  origin _ _ := rfl
  inner {orig target left above diagonal} any edge fromLeft fromAbove fromDiagonal := by
    intro next hc
    rcases leave_cases prices (extend prices .delete .delete left)
      (extend prices .insert .insert above) (extend prices .copy .copy diagonal) next with
      h | h | h | h <;> rw [lattice, h] at hc ⊢
    · exact absurd hc (Nat.lt_irrefl _)
    · refine price_after prices (fun _ => rfl) (fun byte cell hf => ?_) hc
      obtain ⟨_, -, he⟩ := fromLeft byte cell hf
      exact he
    · refine price_after prices (fun _ => rfl) (fun byte cell hf => ?_) hc
      obtain ⟨_, -, he⟩ := fromAbove byte cell hf
      exact he
    · refine price_after prices (fun _ => rfl) (fun byte cell hf => ?_) hc
      obtain ⟨_, _, -, -, he⟩ := fromDiagonal byte cell hf
      exact he

theorem price_trail {orig target : Bytes} (h : (way prices orig target).cost < ceiling) :
    price prices (trail prices orig target) .stop = (way prices orig target).cost :=
  (exact prices).last orig target .stop h

/-- The chosen path from its start on. -/
def path (orig target : Bytes) : Path := (trail prices orig target).reverse

theorem joins_path {orig target : Bytes} (h : (way prices orig target).cost < ceiling) :
    (path prices orig target).Joins orig target := by
  simpa [path] using (joins_trail prices h).reverse

theorem total_path {orig target : Bytes} (h : (way prices orig target).cost < ceiling) :
    prices.total (path prices orig target) = (way prices orig target).cost := by
  rw [← price_reverse, path, List.reverse_reverse, price_trail prices h]

theorem cost_way_le_total {path : Path} {orig target : Bytes} (h : path.Joins orig target) :
    (way prices orig target).cost ≤ prices.total path := by
  rw [← price_reverse]
  exact cost_way_le_price prices h.reverse

theorem cost_way_le_ceiling (orig target : Bytes) : (way prices orig target).cost ≤ ceiling :=
  cost_leave_le_ceiling prices _ _

end Priced

theorem PriceTable.exists_cheapest (prices : PriceTable) (orig target : Bytes) :
    ∃ best : Path, best.Joins orig target ∧
      ∀ path : Path, path.Joins orig target → prices.total best ≤ prices.total path := by
  have hjoins : Stretch.Joins [.delete orig, .insert target] orig target :=
    ⟨by simp [Stretch.leftBytes], by simp [Stretch.rightBytes]⟩
  obtain ⟨best, hbest, hmin⟩ := exists_minimalFor_of_wellFoundedLT
    (fun path : Path => path.Joins orig target) prices.total ⟨_, hjoins.path⟩
  refine ⟨best, hbest, fun path hpath => ?_⟩
  rcases Nat.le_total (prices.total best) (prices.total path) with h | h
  · exact h
  · exact hmin hpath h

namespace Priced

variable (prices : PriceTable)

theorem cost_way_eq_min {best : Path} {orig target : Bytes} (hbest : best.Joins orig target)
    (hmin : ∀ path : Path, path.Joins orig target → prices.total best ≤ prices.total path) :
    (way prices orig target).cost = min ceiling (prices.total best) := by
  have hle := cost_way_le_ceiling prices orig target
  have hbelow := cost_way_le_total prices hbest
  by_cases h : (way prices orig target).cost < ceiling
  · have := hmin _ (joins_path prices h)
    rw [total_path prices h] at this
    omega
  · omega

/-- The steps of the script that is found, if the cost can be told from that of no path. -/
theorem steps_script {orig target : Bytes} (h : (way prices orig target).cost < ceiling) :
    ((Strategy.cheapest prices).script orig target).steps orig = path prices orig target := by
  have hleft : Path.left (trail prices orig target).reverse = orig := (joins_path prices h).left_eq
  have hsteps := Path.steps_scriptBack (trail prices orig target)
  rwa [hleft] at hsteps

end Priced

/-- Whatever the prices are, and whatever a graph was used for before. -/
theorem Graph.cost_compute (prices : PriceTable) {capacity : Nat} (hword : capacity < UInt64.size)
    (before : Option (Bytes × Bytes)) {orig target : Bytes}
    (hfits : Aligner.cells orig target ≤ capacity) :
    ∃ graph best, compute ⟨⟨.cheapest prices, capacity⟩, before⟩ orig target = (.ok (), graph) ∧
      best.Joins orig target ∧
      (∀ path : Path, path.Joins orig target → prices.total best ≤ prices.total path) ∧
      graph.cost = .ok (min (2 ^ 32 - 1) (prices.total best)) ∧
      (prices.total best < 2 ^ 32 - 1 → ∃ ops, graph.script = .ok ops ∧
        (ops.steps orig).Joins orig target ∧
        prices.total (ops.steps orig) = prices.total best) := by
  obtain ⟨best, hbest, hmin⟩ := prices.exists_cheapest orig target
  have hcost := Priced.cost_way_eq_min prices hbest hmin
  have hcells : Aligner.cells orig target ≤ min capacity Aligner.maxCells :=
    Nat.le_min.2 ⟨hfits, Nat.le_sub_one_of_lt (Nat.lt_of_le_of_lt hfits hword)⟩
  refine ⟨_, best, compute_of_fits hcells, hbest, hmin, congrArg Except.ok hcost, fun hlt => ?_⟩
  have hbelow : (Priced.way prices orig target).cost < Priced.ceiling := by
    rw [hcost]
    exact Nat.lt_of_le_of_lt (Nat.min_le_right _ _) hlt
  refine ⟨_, rfl, ?_, ?_⟩
  · rw [Priced.steps_script prices hbelow]
    exact Priced.joins_path prices hbelow
  · rw [Priced.steps_script prices hbelow, Priced.total_path prices hbelow, hcost]
    exact Nat.min_eq_right (Nat.le_of_lt hlt)

/-- A table in which going on with a run costs more than breaking it up, and a copy costs as much as
there can be. -/
def PriceTable.uneven : PriceTable
  | _, .copy => 4294967295
  | last, next => if last = next then 9 else 1

/-- After a pair of one byte each, in a lattice that just fits. -/
theorem Graph.cost_compute_uneven : ∃ graph best,
    compute ⟨⟨.cheapest .uneven, 12⟩, some ([7], [8])⟩ [1, 2] [1, 2, 3] = (.ok (), graph) ∧
    best.Joins [1, 2] [1, 2, 3] ∧
    (∀ path : Path, path.Joins [1, 2] [1, 2, 3] →
      PriceTable.uneven.total best ≤ PriceTable.uneven.total path) ∧
    graph.cost = .ok (min (2 ^ 32 - 1) (PriceTable.uneven.total best)) ∧
    (PriceTable.uneven.total best < 2 ^ 32 - 1 → ∃ ops, graph.script = .ok ops ∧
      (ops.steps [1, 2]).Joins [1, 2] [1, 2, 3] ∧
      PriceTable.uneven.total (ops.steps [1, 2]) = PriceTable.uneven.total best) :=
  cost_compute .uneven (by decide) _ (by decide)

end BytePatch
