import BytePatch.Proofs.Script.Grouping
import BytePatch.Lattice.Graph
import BytePatch.Proofs.Lattice.Comparison

/-! A price of one for every step makes a cheapest path a shortest one, and the choice among equally
cheap ones is the choice among equally short ones. -/
namespace BytePatch

/-- Every step costs one, whatever came before it, and so does coming to the end. -/
def PriceTable.flat : PriceTable := fun _ _ => 1

namespace Arrival

/-- The same way at one more. -/
def dearer (arrival : Arrival) : Arrival := ⟨arrival.cost + 1, arrival.trail⟩

theorem cheapest?_map_dearer (arrivals : List Arrival) :
    cheapest? (arrivals.map dearer) = (cheapest? arrivals).map dearer := by
  induction arrivals with
  | nil => rfl
  | cons first others ih =>
    rw [List.map_cons, cheapest?, cheapest?, ih]
    cases cheapest? others with
    | none => rfl
    | some other =>
      simp only [Option.map_some, dearer, Nat.add_lt_add_iff_right]
      split <;> rfl

end Arrival

namespace Priced

/-- A shortest way to a cell of so many steps at most, and the cell where steps have a flat price:
it is left by that way, whatever step follows. -/
private structure Agrees (size : Nat) (nearest : Arrival) (cell : Cell) : Prop where
  cost_eq : nearest.cost = nearest.trail.length
  cost_le : nearest.cost ≤ size
  leave_eq : ∀ next, leave .flat cell next = nearest.dearer

private theorem Agrees.mono {size size' : Nat} {nearest : Arrival} {cell : Cell}
    (h : Agrees size nearest cell) (hsize : size ≤ size') : Agrees size' nearest cell :=
  ⟨h.cost_eq, h.cost_le.trans hsize, h.leave_eq⟩

/-- A neighbour in both lattices, or in neither. -/
private inductive Beside (size : Nat) : Option (UInt8 × Arrival) → Option (UInt8 × Cell) → Prop
  | neither : Beside size none none
  | both {byte nearest cell} : Agrees size nearest cell →
      Beside size (some (byte, nearest)) (some (byte, cell))

section Beside
variable {size : Nat} {near? : Option (UInt8 × Arrival)} {priced? : Option (UInt8 × Cell)}

private theorem Agrees.extend_eq {nearest : Arrival} {cell : Cell} (h : Agrees size nearest cell)
    (hsize : size + 2 < ceiling) (make : UInt8 → Step) (byte : UInt8) :
    Nearest.extend make (some (byte, nearest)) =
      [⟨nearest.cost + 1, make byte :: nearest.trail⟩] := by
  have hlt : nearest.cost + 1 < UInt32.size := by
    have := h.cost_le
    unfold ceiling at hsize
    omega
  rw [Nearest.extend, Nat.mod_eq_of_lt hlt]

private theorem Beside.counted (h : Beside size near? priced?) (hsize : size + 2 < ceiling)
    {make : UInt8 → Step} {arrival : Arrival} (ha : arrival ∈ Nearest.extend make near?) :
    arrival.cost = arrival.trail.length ∧ arrival.cost ≤ size + 1 := by
  cases h with
  | neither => cases ha
  | @both byte nearest cell hagrees =>
    rw [hagrees.extend_eq hsize] at ha
    obtain rfl := List.mem_singleton.1 ha
    exact ⟨congrArg (· + 1) hagrees.cost_eq, Nat.succ_le_succ hagrees.cost_le⟩

private theorem Beside.ways_eq (h : Beside size near? priced?) (hsize : size + 2 < ceiling)
    (make : UInt8 → Step) (kind last next : Kind) :
    [after .flat last next (extend .flat make kind priced?)].filter (·.cost < ceiling) =
      (Nearest.extend make near?).map Arrival.dearer := by
  cases h with
  | neither =>
    have hfar : ¬ (after .flat last next nowhere).cost < ceiling := by
      simp [after, nowhere, PriceTable.flat]
    rw [extend, List.filter_cons_of_neg (by simpa using hfar)]
    rfl
  | @both byte nearest cell hagrees =>
    have hlt : nearest.cost + 1 + 1 < ceiling := by
      have := hagrees.cost_le
      omega
    have hafter : after .flat last next (extend .flat make kind (some (byte, cell))) =
        ⟨nearest.cost + 1 + 1, make byte :: nearest.trail⟩ := by
      simp [after, extend, hagrees.leave_eq, Arrival.dearer, PriceTable.flat,
        Nat.min_eq_right hlt.le]
    rw [hafter, hagrees.extend_eq hsize, List.filter_cons_of_pos (by simpa using hlt)]
    rfl

end Beside

section Inner
variable {size : Nat} {left above diagonal : Option (UInt8 × Arrival)}
  {left' above' diagonal' : Option (UInt8 × Cell)}

/-- The ways to arrive over three neighbours, the preferred ones first. -/
private def ways (left above diagonal : Option (UInt8 × Arrival)) : List Arrival :=
  Nearest.extend .delete left ++ (Nearest.extend .insert above ++ Nearest.extend .copy diagonal)

variable (hsize : size + 2 < ceiling) (hleft : Beside size left left')
  (habove : Beside size above above') (hdiagonal : Beside size diagonal diagonal')
include hsize hleft habove hdiagonal

private theorem counted_ways {arrival : Arrival} (ha : arrival ∈ ways left above diagonal) :
    arrival.cost = arrival.trail.length ∧ arrival.cost ≤ size + 1 := by
  rcases List.mem_append.1 ha with ha | ha
  · exact hleft.counted hsize ha
  rcases List.mem_append.1 ha with ha | ha
  · exact habove.counted hsize ha
  · exact hdiagonal.counted hsize ha

private theorem nearest_inner_eq : Nearest.lattice.inner left above diagonal =
    (Arrival.cheapest? (ways left above diagonal)).getD ⟨Nearest.farthest, []⟩ := by
  have hall : (Nearest.extend .insert above ++ Nearest.extend .copy diagonal).filter
      (·.cost < Nearest.farthest) =
        Nearest.extend .insert above ++ Nearest.extend .copy diagonal := by
    apply List.filter_eq_self.2
    intro arrival ha
    have hmem : arrival ∈ ways left above diagonal := List.mem_append_right _ ha
    have hle := (counted_ways hsize hleft habove hdiagonal hmem).2
    exact decide_eq_true (Nat.lt_of_le_of_lt hle (Nat.lt_of_succ_lt hsize))
  simp only [Nearest.lattice, hall, ways]

private theorem leave_inner_eq (next : Kind) :
    leave .flat ((lattice .flat).inner left' above' diagonal') next =
      (Arrival.cheapest? ((ways left above diagonal).map Arrival.dearer)).getD nowhere := by
  have hways : [after .flat .delete next (extend .flat .delete .delete left'),
      after .flat .insert next (extend .flat .insert .insert above'),
      after .flat .copy next (extend .flat .copy .copy diagonal')].filter (·.cost < ceiling) =
        (ways left above diagonal).map Arrival.dearer := by
    rw [ways, List.map_append, List.map_append,
      ← hleft.ways_eq hsize .delete .delete .delete next,
      ← habove.ways_eq hsize .insert .insert .insert next,
      ← hdiagonal.ways_eq hsize .copy .copy .copy next, ← List.filter_append, ← List.filter_append]
    rfl
  simp only [leave, lattice, hways]

private theorem agrees_inner (any : ways left above diagonal ≠ []) :
    Agrees (size + 1) (Nearest.lattice.inner left above diagonal)
      ((lattice .flat).inner left' above' diagonal') := by
  obtain ⟨best, hbest⟩ := Option.isSome_iff_exists.1 (Arrival.isSome_cheapest? any)
  have hinner := nearest_inner_eq hsize hleft habove hdiagonal
  rw [hbest, Option.getD_some] at hinner
  obtain ⟨hcost, hle⟩ :=
    counted_ways hsize hleft habove hdiagonal (Arrival.mem_of_cheapest? hbest)
  rw [hinner]
  refine ⟨hcost, hle, fun next => ?_⟩
  rw [leave_inner_eq hsize hleft habove hdiagonal, Arrival.cheapest?_map_dearer, hbest]
  rfl

end Inner

private theorem agrees_cell (orig target : Bytes) (h : orig.length + target.length + 1 < ceiling) :
    Agrees (orig.length + target.length) (Nearest.lattice.cell orig target)
      ((lattice .flat).cell orig target) := by
  induction orig, target using Lattice.cell.induct with
  | case1 =>
    rw [Lattice.cell, Lattice.cell]
    exact ⟨rfl, Nat.le_refl _, fun _ => rfl⟩
  | case2 x orig ih =>
    rw [List.length_cons] at h
    have hleft := ih (by omega)
    rw [Lattice.cell, Lattice.cell, List.length_cons, Nat.add_right_comm]
    refine agrees_inner (by omega) (.both hleft) .neither .neither ?_
    exact List.append_ne_nil_of_left_ne_nil (List.cons_ne_nil _ _) _
  | case3 y target ih =>
    rw [List.length_cons] at h
    have habove := ih (by omega)
    rw [Lattice.cell, Lattice.cell, List.length_cons, ← Nat.add_assoc]
    exact agrees_inner (by omega) .neither (.both habove) .neither (List.cons_ne_nil _ _)
  | case4 x orig y target ihleft ihabove ihdiagonal =>
    -- The diagonal neighbour is two bytes nearer to the origin, the other two are one byte nearer.
    rw [List.length_cons, List.length_cons] at h
    rw [List.length_cons] at ihleft ihabove
    have hsize : orig.length + (target.length + 1) = orig.length + 1 + target.length := by omega
    have hleft := ihleft (by omega)
    have habove := ihabove (by omega)
    rw [← hsize] at habove
    have hdiagonal : Beside (orig.length + (target.length + 1))
        (if x = y then some (x, Nearest.lattice.cell orig target) else none)
        (if x = y then some (x, (lattice .flat).cell orig target) else none) := by
      split
      · exact .both ((ihdiagonal (by omega)).mono (by omega))
      · exact .neither
    rw [Lattice.cell, Lattice.cell, List.length_cons, List.length_cons, Nat.add_right_comm]
    refine agrees_inner (by omega) (.both hleft) (.both habove) hdiagonal ?_
    exact List.append_ne_nil_of_left_ne_nil (List.cons_ne_nil _ _) _

/-- The cheapest path at a flat price is the shortest one that is chosen, and costs one for each of
its steps and one for the end. -/
theorem way_flat_eq {orig target : Bytes} (h : orig.length + target.length + 1 < ceiling) :
    way .flat orig target =
      ⟨(Nearest.trail orig target).length + 1, Nearest.trail orig target⟩ := by
  have hagrees := agrees_cell orig.reverse target.reverse (by simpa using h)
  rw [way, Lattice.last_eq_cell, hagrees.leave_eq, Nearest.trail, Lattice.last_eq_cell,
    ← hagrees.cost_eq]
  rfl

end Priced

theorem Path.totalRun_scriptBack (trail : Path) : trail.scriptBack.totalRun = trail.length := by
  have steps (path : Path) : Script.totalRun (path.map Step.op) = path.length := by
    induction path with
    | nil => rfl
    | cons step path ih =>
      have hrun : step.op.run = 1 := by cases step <;> rfl
      rw [Script.totalRun] at ih
      rw [Script.totalRun, List.map_cons, sumOf_cons, ih, hrun, List.length_cons, Nat.add_comm]
  rw [scriptBack_eq, Script.totalRun_grouped, steps, List.length_reverse]

namespace Graph

/-- With a flat price a graph finds just the script that it finds when it looks for the fewest
steps, whatever either was used for before, and what that costs is one more than all its runs
together. The strings have to be short enough for their steps to be counted. -/
theorem compute_flat (capacity : Nat) (before before' : Option (Bytes × Bytes))
    {orig target : Bytes} (hlength : orig.length + target.length < 2 ^ 32 - 2)
    (hfits : Aligner.cells orig target ≤ capacity) :
    ∃ flat fewest ops,
      compute ⟨⟨.cheapest .flat, capacity⟩, before⟩ orig target = (.ok (), flat) ∧
      compute ⟨⟨.fewest, capacity⟩, before'⟩ orig target = (.ok (), fewest) ∧
      flat.script = .ok ops ∧ fewest.script = .ok ops ∧
      flat.cost = .ok (ops.totalRun + 1) := by
  have hcells := Nat.le_min.2
    ⟨hfits, Aligner.cells_le_maxCells_of_counted (Nat.lt_trans hlength (by decide))⟩
  have hshort : orig.length + target.length + 1 < Priced.ceiling := by
    have hceiling : Priced.ceiling = 2 ^ 32 - 1 := rfl
    omega
  have hway := Priced.way_flat_eq hshort
  have htrail : Priced.trail .flat orig target = Nearest.trail orig target := by
    rw [Priced.trail, hway]
  have hscript : Strategy.script (.cheapest .flat) orig target =
      Strategy.script .fewest orig target := congrArg Path.scriptBack htrail
  refine ⟨_, _, _, compute_of_fits hcells, compute_of_fits hcells, rfl, ?_, ?_⟩
  · exact congrArg Except.ok hscript.symm
  · refine congrArg Except.ok ?_
    rw [hscript]
    change (Priced.way .flat orig target).cost =
      (Path.scriptBack (Nearest.trail orig target)).totalRun + 1
    rw [hway, Path.totalRun_scriptBack]

/-- Strings with several shortest paths, on graphs of which one has been used before. -/
theorem compute_flat_tied : ∃ flat fewest ops,
    compute ⟨⟨.cheapest .flat, 20⟩, some ([7], [8, 9])⟩ [1, 2, 3] [3, 1, 2, 4] = (.ok (), flat) ∧
    compute ⟨⟨.fewest, 20⟩, none⟩ [1, 2, 3] [3, 1, 2, 4] = (.ok (), fewest) ∧
    flat.script = .ok ops ∧ fewest.script = .ok ops ∧ flat.cost = .ok (ops.totalRun + 1) :=
  compute_flat 20 _ none (by decide) (by decide)

end Graph

end BytePatch
