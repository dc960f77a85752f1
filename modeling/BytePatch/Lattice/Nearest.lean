import BytePatch.Lattice.Fill
/-!
The lattice in which every step costs one. Each cell keeps one shortest path; of equally short
ones it prefers to arrive by a delete, then by an insert, then by a copy.
-/
namespace BytePatch

/-- A path that arrives at a cell, last step first, and what it has cost. -/
structure Arrival where
  cost : Nat
  trail : Path
deriving DecidableEq

/-- The cheapest arrival, the first one in the list if several are. -/
def Arrival.cheapest? : List Arrival → Option Arrival
  | [] => none
  | arrival :: others =>
    match cheapest? others with
    | none => some arrival
    | some other => if other.cost < arrival.cost then some other else some arrival

theorem Arrival.mem_of_cheapest? {arrivals : List Arrival} {arrival : Arrival}
    (h : cheapest? arrivals = some arrival) : arrival ∈ arrivals := by
  induction arrivals generalizing arrival with
  | nil => cases h
  | cons first others ih =>
    unfold cheapest? at h
    split at h
    · cases h; exact List.mem_cons_self
    · next other ho =>
      split at h <;> cases h
      · exact List.mem_cons_of_mem _ (ih ho)
      · exact List.mem_cons_self

theorem Arrival.isSome_cheapest? {arrivals : List Arrival} (h : arrivals ≠ []) :
    (cheapest? arrivals).isSome := by
  cases arrivals with
  | nil => exact absurd rfl h
  | cons first others =>
    unfold cheapest?
    split
    · rfl
    · split <;> rfl

namespace Nearest

/-- The length of no path. Lengths are 32-bit numbers, of which it is the largest. -/
def farthest : Nat := UInt32.size - 1

/-- The ways to arrive over one neighbour, of which there is at most one. -/
def extend (make : UInt8 → Step) : Option (UInt8 × Arrival) → List Arrival
  | none => []
  | some (byte, before) => [⟨(before.cost + 1) % UInt32.size, make byte :: before.trail⟩]

/-- A delete is always a way to arrive, the other steps only if they are not too far from the
origin. -/
def lattice : Lattice Arrival where
  origin := ⟨0, []⟩
  inner left above diagonal :=
    (Arrival.cheapest? (extend .delete left ++
      (extend .insert above ++ extend .copy diagonal).filter (·.cost < farthest))).getD
      ⟨farthest, []⟩

/-- A shortest path from the ends of both strings back to their starts, unless it is too long to
be counted. -/
def trail (orig target : Bytes) : Path := (lattice.last orig target).trail

private theorem mem_extend {make : UInt8 → Step} {from? : Option (UInt8 × Arrival)}
    {arrival : Arrival} (h : arrival ∈ extend make from?) :
    ∃ byte before, from? = some (byte, before) ∧ arrival.trail = make byte :: before.trail := by
  unfold extend at h
  split at h
  · cases h
  · next byte before => simp at h; exact ⟨byte, before, rfl, by rw [h]⟩

/-- The chosen way to arrive comes over a neighbour, if any way is chosen. -/
theorem inner_cases (left above diagonal : Option (UInt8 × Arrival)) :
    (∃ byte before, left = some (byte, before) ∧
      (lattice.inner left above diagonal).trail = .delete byte :: before.trail) ∨
    (∃ byte before, above = some (byte, before) ∧
      (lattice.inner left above diagonal).trail = .insert byte :: before.trail) ∨
    (∃ byte before, diagonal = some (byte, before) ∧
      (lattice.inner left above diagonal).trail = .copy byte :: before.trail) ∨
    left = none ∧ (lattice.inner left above diagonal).trail = [] := by
  simp only [lattice]
  cases hb : Arrival.cheapest? _ with
  | none =>
    refine .inr (.inr (.inr ⟨?_, rfl⟩))
    cases left with
    | none => rfl
    | some pair =>
      have hsome := Arrival.isSome_cheapest?
        (List.append_ne_nil_of_left_ne_nil (s := extend .delete (some pair)) (by simp [extend])
          ((extend .insert above ++ extend .copy diagonal).filter (·.cost < farthest)))
      rw [hb] at hsome
      cases hsome
  | some best =>
    have hm := Arrival.mem_of_cheapest? hb
    simp only [List.mem_append, List.mem_filter] at hm
    rcases hm with hm | ⟨hm | hm, -⟩
    · exact .inl (mem_extend hm)
    · exact .inr (.inl (mem_extend hm))
    · exact .inr (.inr (.inl (mem_extend hm)))

private theorem bounded : lattice.Invariant fun orig target arrival =>
    arrival.trail.length ≤ orig.length + target.length where
  origin := Nat.le_refl _
  inner {orig target left above diagonal} any edge fromLeft fromAbove fromDiagonal := by
    rcases inner_cases left above diagonal with ⟨byte, before, hf, ht⟩ | ⟨byte, before, hf, ht⟩ |
      ⟨byte, before, hf, ht⟩ | ⟨-, ht⟩ <;> rw [ht]
    · obtain ⟨_, rfl, h⟩ := fromLeft _ _ hf
      simp only [List.length_cons]
      omega
    · obtain ⟨_, rfl, h⟩ := fromAbove _ _ hf
      simp only [List.length_cons]
      omega
    · obtain ⟨_, _, rfl, rfl, h⟩ := fromDiagonal _ _ hf
      simp only [List.length_cons]
      omega
    · exact Nat.zero_le _

theorem length_trail_le (orig target : Bytes) :
    (trail orig target).length ≤ orig.length + target.length := by
  simpa [trail] using bounded.last orig target

/-- Whatever its length, a way is chosen wherever there is something to delete. -/
theorem trail_ne_nil {orig : Bytes} (h : orig ≠ []) (target : Bytes) : trail orig target ≠ [] := by
  have chosen : lattice.Invariant fun orig _ arrival => orig ≠ [] → arrival.trail ≠ [] :=
    { origin := fun h => absurd rfl h
      inner := by
        intro orig target left above diagonal _ edge _ _ _ h
        rcases inner_cases left above diagonal with ⟨_, _, _, ht⟩ | ⟨_, _, _, ht⟩ | ⟨_, _, _, ht⟩ |
          ⟨hf, _⟩
        · exact ht ▸ List.cons_ne_nil _ _
        · exact ht ▸ List.cons_ne_nil _ _
        · exact ht ▸ List.cons_ne_nil _ _
        · exact absurd (edge hf) h }
  exact chosen.last orig target (by simpa using h)

/-- Along the edge where nothing can be deleted, lengths are counted up to the largest one. -/
theorem inner_edge (byte : UInt8) {before : Arrival} (h : before.cost + 1 < farthest) :
    lattice.inner none (some (byte, before)) none =
      ⟨before.cost + 1, .insert byte :: before.trail⟩ := by
  have hcost : (before.cost + 1) % UInt32.size = before.cost + 1 :=
    Nat.mod_eq_of_lt (Nat.lt_trans h (by decide))
  have hnear : decide (before.cost + 1 < farthest) = true := decide_eq_true h
  simp only [lattice, extend, hcost, List.nil_append, List.append_nil, List.filter_cons, hnear,
    List.filter_nil, if_true, Arrival.cheapest?, Option.getD_some]

private theorem joins : lattice.Invariant fun orig target arrival => target.length < farthest →
    arrival.trail.Joins orig target ∧ (orig = [] → arrival.cost = target.length) where
  origin _ := ⟨⟨rfl, rfl⟩, fun _ => rfl⟩
  inner {orig target left above diagonal} any edge fromLeft fromAbove fromDiagonal hfar := by
    cases left with
    | none =>
      obtain rfl := edge rfl
      obtain ⟨⟨byte, before⟩, rfl⟩ := Option.isSome_iff_exists.1 (any.resolve_left nofun)
      obtain ⟨target, rfl, h⟩ := fromAbove byte before rfl
      obtain rfl : diagonal = none := by
        refine Option.eq_none_iff_forall_ne_some.2 fun pair hd => ?_
        obtain ⟨_, _, hnil, -⟩ := fromDiagonal _ _ hd
        cases hnil
      rw [List.length_cons] at hfar ⊢
      obtain ⟨hjoins, hcost⟩ := h (Nat.lt_of_succ_lt hfar)
      rw [inner_edge byte (by rw [hcost rfl]; exact hfar), hcost rfl]
      exact ⟨⟨by rw [Path.left, hjoins.left_eq], by rw [Path.right, hjoins.right_eq]⟩, fun _ => rfl⟩
    | some pair =>
      obtain ⟨_, horig, -⟩ := fromLeft pair.1 pair.2 rfl
      refine ⟨?_, fun hnil => by rw [hnil] at horig; cases horig⟩
      rcases inner_cases (some pair) above diagonal with ⟨byte, before, hf, ht⟩ |
        ⟨byte, before, hf, ht⟩ | ⟨byte, before, hf, ht⟩ | ⟨hf, -⟩
      · obtain ⟨_, rfl, h⟩ := fromLeft _ _ hf
        have hjoins := (h hfar).1
        rw [ht]
        exact ⟨by rw [Path.left, hjoins.left_eq], by rw [Path.right, hjoins.right_eq]⟩
      · obtain ⟨_, rfl, h⟩ := fromAbove _ _ hf
        have hjoins := (h (Nat.lt_of_succ_lt hfar)).1
        rw [ht]
        exact ⟨by rw [Path.left, hjoins.left_eq], by rw [Path.right, hjoins.right_eq]⟩
      · obtain ⟨_, _, rfl, rfl, h⟩ := fromDiagonal _ _ hf
        have hjoins := (h (Nat.lt_of_succ_lt hfar)).1
        rw [ht]
        exact ⟨by rw [Path.left, hjoins.left_eq], by rw [Path.right, hjoins.right_eq]⟩
      · cases hf

theorem joins_trail (orig : Bytes) {target : Bytes} (h : target.length < farthest) :
    (trail orig target).Joins orig.reverse target.reverse :=
  (joins.last orig target (by simpa using h)).1

end Nearest

end BytePatch
