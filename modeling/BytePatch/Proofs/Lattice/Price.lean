import BytePatch.Lattice.Priced
import BytePatch.Lattice.Stretch
import BytePatch.Proofs.Lattice.Cell

/-! The price of a path as a sum over its steps. No path across the lattice is cheaper than the one
that is chosen, so any path at all gives a bound on what the chosen one costs. -/
namespace BytePatch.Priced

variable (prices : PriceTable)

/-- The price of a path, last step first, once a step of the given kind follows it. -/
def price : Path → Kind → Nat
  | [], next => (prices .stop next).toNat
  | step :: trail, next => price trail step.kind + (prices step.kind next).toNat

private theorem toNat_le_ceiling (last next : Kind) : (prices last next).toNat ≤ ceiling := by
  have := (prices last next).toNat_lt
  unfold ceiling UInt32.size
  omega

private theorem cost_le_of_cheapest? {arrivals : List Arrival} {best : Arrival}
    (h : Arrival.cheapest? arrivals = some best) {arrival : Arrival} (ha : arrival ∈ arrivals) :
    best.cost ≤ arrival.cost := by
  induction arrivals generalizing best with
  | nil => cases ha
  | cons first others ih =>
    unfold Arrival.cheapest? at h
    cases ho : Arrival.cheapest? others with
    | none =>
      rw [ho] at h
      cases h
      cases others with
      | nil => exact Nat.le_of_eq (by rw [List.mem_singleton.1 ha])
      | cons other others =>
        have hsome := Arrival.isSome_cheapest? (List.cons_ne_nil other others)
        rw [ho] at hsome
        cases hsome
    | some other =>
      rw [ho] at h
      have hrest : arrival ∈ others → other.cost ≤ arrival.cost := ih ho
      simp only at h
      rcases List.mem_cons.1 ha with rfl | ha
      · split at h <;> cases h
        · omega
        · exact Nat.le_refl _
      · have := hrest ha
        split at h <;> cases h
        · exact this
        · omega

theorem cost_leave_le_ceiling (cell : Cell) (next : Kind) :
    (leave prices cell next).cost ≤ ceiling := by
  cases cell with
  | origin => exact toNat_le_ceiling prices _ _
  | inner delete insert copy =>
    simp only [leave]
    cases hb : Arrival.cheapest? _ with
    | none => exact Nat.le_refl _
    | some best =>
      have hm := (List.mem_filter.1 (Arrival.mem_of_cheapest? hb)).2
      exact Nat.le_of_lt (by simpa using hm)

private theorem cost_leave_inner_le {delete insert copy way : Arrival} {last : Kind}
    (h : last = .delete ∧ way = delete ∨ last = .insert ∧ way = insert ∨
      last = .copy ∧ way = copy) (next : Kind) :
    (leave prices (.inner delete insert copy) next).cost ≤
      way.cost + (prices last next).toNat := by
  by_cases hc : (after prices last next way).cost < ceiling
  · have hm : after prices last next way ∈ [after prices .delete next delete,
        after prices .insert next insert, after prices .copy next copy].filter
          (·.cost < ceiling) := by
      refine List.mem_filter.2 ⟨?_, by simpa using hc⟩
      rcases h with ⟨rfl, rfl⟩ | ⟨rfl, rfl⟩ | ⟨rfl, rfl⟩ <;> simp
    obtain ⟨best, hb⟩ := Option.isSome_iff_exists.1
      (Arrival.isSome_cheapest? (List.ne_nil_of_mem hm))
    have hle := cost_le_of_cheapest? hb hm
    simp only [leave, hb, Option.getD_some]
    exact Nat.le_trans hle (Nat.min_le_right _ _)
  · have := cost_leave_le_ceiling prices (.inner delete insert copy) next
    simp only [after] at hc
    omega

/-- A cell is left at no more than the price of any path that arrives there. -/
theorem cost_leave_le_price {trail : Path} {orig target : Bytes} (h : trail.Joins orig target)
    (next : Kind) :
    (leave prices ((lattice prices).cell orig target) next).cost ≤ price prices trail next := by
  induction trail generalizing orig target next with
  | nil =>
    obtain ⟨rfl, rfl⟩ := h
    rw [show Path.left [] = [] from rfl, show Path.right [] = [] from rfl, Lattice.cell]
    exact Nat.le_refl _
  | cons step trail ih =>
    obtain ⟨rfl, rfl⟩ := h
    have ih := ih ⟨rfl, rfl⟩ step.kind
    cases step with
    | delete byte =>
      obtain ⟨above, diagonal, hc⟩ :=
        (lattice prices).cell_of_left byte (Path.left trail) (Path.right trail)
      rw [Path.left, Path.right, hc]
      exact Nat.le_trans (cost_leave_inner_le prices (.inl ⟨rfl, rfl⟩) next)
        (Nat.add_le_add_right ih _)
    | insert byte =>
      obtain ⟨left, diagonal, hc⟩ :=
        (lattice prices).cell_of_above byte (Path.left trail) (Path.right trail)
      rw [Path.left, Path.right, hc]
      exact Nat.le_trans (cost_leave_inner_le prices (.inr (.inl ⟨rfl, rfl⟩)) next)
        (Nat.add_le_add_right ih _)
    | copy byte =>
      obtain ⟨left, above, hc⟩ :=
        (lattice prices).cell_of_diagonal byte (Path.left trail) (Path.right trail)
      rw [Path.left, Path.right, hc]
      exact Nat.le_trans (cost_leave_inner_le prices (.inr (.inr ⟨rfl, rfl⟩)) next)
        (Nat.add_le_add_right ih _)

theorem cost_way_le_price {trail : Path} {orig target : Bytes}
    (h : trail.Joins orig.reverse target.reverse) :
    (way prices orig target).cost ≤ price prices trail .stop := by
  rw [way, Lattice.last_eq_cell]
  exact cost_leave_le_price prices h .stop

section Encoding

private theorem price_deletes (bytes : Bytes) (next : Kind) :
    price .encoding (Stretch.delete bytes).steps next ≤
      2 + (PriceTable.encoding .delete next).toNat := by
  have run : ∀ bytes, price .encoding (Stretch.delete bytes).steps .delete = 2 := by
    intro bytes
    induction bytes with
    | nil => rfl
    | cons byte bytes ih => exact ih
  cases bytes with
  | nil => cases next <;> decide
  | cons byte bytes => exact Nat.add_le_add_right (Nat.le_of_eq (run bytes)) _

private theorem price_inserts (orig target : Bytes) :
    price .encoding ((Stretch.insert target).steps ++ (Stretch.delete orig).steps) .insert ≤
      target.length + 5 := by
  induction target with
  | nil => exact price_deletes orig .insert
  | cons byte target ih => exact Nat.succ_le_succ ih

/-- Deleting the one string and inserting the other is always a way, and takes two opcodes and two
run lengths. -/
theorem cost_way_encoding_le (orig target : Bytes) :
    (way .encoding orig target).cost ≤ target.length + 4 := by
  have hjoins : Stretch.Joins [.insert target.reverse, .delete orig.reverse]
      orig.reverse target.reverse := ⟨by simp [Stretch.leftBytes], by simp [Stretch.rightBytes]⟩
  have hcost := cost_way_le_price .encoding hjoins.path
  simp only [List.flatMap_cons, List.flatMap_nil, List.append_nil] at hcost
  rw [← List.length_reverse]
  cases ht : target.reverse with
  | nil =>
    rw [ht] at hcost
    exact Nat.le_trans hcost (Nat.le_trans (price_deletes _ _) (by decide))
  | cons byte bytes =>
    rw [ht] at hcost
    exact Nat.le_trans hcost (price_inserts orig.reverse bytes)

end Encoding

end BytePatch.Priced
