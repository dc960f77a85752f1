import BytePatch.Lattice.Priced
import BytePatch.Proofs.Lattice.Cell

/-! What is out of reach: paths that are too long or too dear for a 32-bit number are not found,
however short the one string is. -/
namespace BytePatch

namespace Nearest

private theorem cost_cell_nil {target : Bytes} (h : target.length < farthest) :
    (lattice.cell [] target).cost = target.length := by
  induction target with
  | nil =>
    rw [Lattice.cell]
    rfl
  | cons byte target ih =>
    rw [List.length_cons] at h ⊢
    have ih := ih (Nat.lt_of_succ_lt h)
    rw [Lattice.cell, inner_edge byte (by rw [ih]; exact h), ih]

private theorem inner_edge_far (byte : UInt8) {before : Arrival}
    (h : (before.cost + 1) % UInt32.size = farthest) :
    lattice.inner none (some (byte, before)) none = ⟨farthest, []⟩ := by
  have hfar : decide (farthest < farthest) = false := decide_eq_false (Nat.lt_irrefl _)
  simp only [lattice, extend, h, List.append_nil, List.filter_cons, hfar, Bool.false_eq_true,
    if_false, List.filter_nil, Arrival.cheapest?, Option.getD_none]

private theorem trail_inner_of_zero (byte : UInt8) {before : Arrival}
    (h : (before.cost + 1) % UInt32.size = 0) (above diagonal : Option (UInt8 × Arrival)) :
    (lattice.inner (some (byte, before)) above diagonal).trail = .delete byte :: before.trail := by
  simp only [lattice, extend, h, List.singleton_append, Arrival.cheapest?]
  split
  · rfl
  · next other _ => rw [if_neg (Nat.not_lt_zero other.cost), Option.getD_some]

private theorem cell_nil_farthest {target : Bytes} (h : target.length = farthest) :
    lattice.cell [] target = ⟨farthest, []⟩ := by
  cases target with
  | nil => cases h
  | cons byte target =>
    rw [List.length_cons] at h
    have hcost : (lattice.cell [] target).cost = target.length := cost_cell_nil (by omega)
    rw [Lattice.cell]
    refine inner_edge_far byte ?_
    rw [hcost, h]
    rfl

/-- From there the count starts again, and all that was inserted is lost. -/
theorem trail_farthest (byte : UInt8) {target : Bytes} (h : target.length = farthest) :
    trail [byte] target = [.delete byte] := by
  have hedge : lattice.cell [] target.reverse = ⟨farthest, []⟩ :=
    cell_nil_farthest (by rw [List.length_reverse, h])
  obtain ⟨above, diagonal, hcell⟩ := lattice.cell_of_left byte [] target.reverse
  rw [trail, Lattice.last_eq_cell, show [byte].reverse = [byte] from rfl, hcell, hedge]
  exact trail_inner_of_zero byte rfl above diagonal

end Nearest

namespace Priced

private theorem one_le_encoding (last : Kind) : 1 ≤ (PriceTable.encoding last .insert).toNat := by
  cases last <;> decide

/-- How much it costs at least to get so far, if another insert follows or not: every byte of the
right string that the left one has no room for is inserted. -/
private def floor (orig target : Bytes) (next : Kind) : Nat :=
  min ceiling (target.length - orig.length + if next = .insert then 1 else 0)

private theorem floor_le_leave {orig target : Bytes} {delete insert copy : Arrival}
    (h : ∀ arrival ∈ [delete, insert, copy],
      min ceiling (target.length - orig.length) ≤ arrival.cost) (next : Kind) :
    floor orig target next ≤ (leave .encoding (.inner delete insert copy) next).cost := by
  unfold floor
  simp only [leave]
  cases hb : Arrival.cheapest? _ with
  | none => exact Nat.min_le_left _ _
  | some best =>
    have hstep (last : Kind) : (if next = .insert then 1 else 0) ≤
        (PriceTable.encoding last next).toNat := by
      split
      · next heq => rw [heq]; exact one_le_encoding last
      · exact Nat.zero_le _
    have hm := (List.mem_filter.1 (Arrival.mem_of_cheapest? hb)).1
    simp only [List.mem_cons, List.not_mem_nil, or_false] at hm
    rcases hm with rfl | rfl | rfl
    · have := h delete (by simp)
      have := hstep .delete
      simp only [Option.getD_some, after]
      omega
    · have := h insert (by simp)
      have := hstep .insert
      simp only [Option.getD_some, after]
      omega
    · have := h copy (by simp)
      have := hstep .copy
      simp only [Option.getD_some, after]
      omega

private theorem floor_le : (lattice .encoding).Invariant fun orig target cell =>
    ∀ next, floor orig target next ≤ (leave .encoding cell next).cost where
  origin next := by cases next <;> decide
  inner {orig target left above diagonal} any edge fromLeft fromAbove fromDiagonal := by
    refine floor_le_leave ?_
    intro arrival hm
    simp only [List.mem_cons, List.not_mem_nil, or_false] at hm
    rcases hm with rfl | rfl | rfl
    · cases left with
      | none => exact Nat.min_le_left _ _
      | some pair =>
        obtain ⟨before, rfl, h⟩ := fromLeft pair.1 pair.2 rfl
        have := h .delete
        simp only [floor, extend, List.length_cons] at this ⊢
        omega
    · cases above with
      | none => exact Nat.min_le_left _ _
      | some pair =>
        obtain ⟨before, rfl, h⟩ := fromAbove pair.1 pair.2 rfl
        have := h .insert
        simp only [floor, extend, List.length_cons, if_true] at this ⊢
        omega
    · cases diagonal with
      | none => exact Nat.min_le_left _ _
      | some pair =>
        obtain ⟨before, across, rfl, rfl, h⟩ := fromDiagonal pair.1 pair.2 rfl
        have := h .copy
        simp only [floor, extend, List.length_cons] at this ⊢
        omega

/-- A string that is too much longer than the other is out of reach. -/
theorem ceiling_le_cost_way {orig target : Bytes} (h : orig.length + ceiling ≤ target.length) :
    ceiling ≤ (way .encoding orig target).cost := by
  have := floor_le.last orig target .stop
  simp only [floor, List.length_reverse] at this
  unfold way
  omega

theorem trail_encoding_eq_nil {orig target : Bytes} (h : orig.length + ceiling ≤ target.length) :
    trail .encoding orig target = [] :=
  trail_eq_nil .encoding (ceiling_le_cost_way h)

end Priced

end BytePatch
