import BytePatch.Lattice.Comparer
import BytePatch.Proofs.Lattice.Slates
import BytePatch.Proofs.Lattice.Writing

/-! What is read off a slate on the way back from the cell at the ends of both strings: the path that
the cell of the lattice has kept. -/
namespace BytePatch

theorem Step.kind_ne_stop (step : Step) : step.kind ≠ .stop := by cases step <;> nofun

namespace Slate

/-- A step is written down, and the walk goes on at the earlier position that the step comes from. -/
theorem Holds.walk_step {Cell Mark : Type} [Inhabited Mark] {lattice : Lattice Cell}
    {Shows : Nat → Cell → Mark → Prop} {orig target : Bytes} {slate : Slate Mark}
    (h : slate.Holds lattice Shows orig target) {x y x' y' : Nat} {step : Step}
    (hx : x ≤ orig.length) (hleads : Leads orig.toArray target.toArray x' y' step x y)
    (runs : Runs) :
    x + y * slate.width ≠ 0 ∧
      slate.before (x + y * slate.width) step.kind = x' + y' * slate.width ∧
      x' + y' * slate.width < x + y * slate.width ∧
      slate.record (x + y * slate.width) step.kind runs = runs.take step := by
  have hlt : x < slate.width := by
    rw [width, h.orig_eq, List.size_toArray]
    omega
  have hmod : (x + y * slate.width) % slate.width = x := by
    rw [Nat.add_mul_mod_self_right, Nat.mod_eq_of_lt hlt]
  have hdiv : (x + y * slate.width) / slate.width = y := by
    rw [Nat.add_mul_div_right _ _ (Nat.lt_of_le_of_lt (Nat.zero_le x) hlt), Nat.div_eq_of_lt hlt,
      Nat.zero_add]
  have hpos : x + y * slate.width ≠ 0 := place_ne_zero hleads slate.orig.size
  have hbefore : slate.before (x + y * slate.width) step.kind = x' + y' * slate.width := by
    cases hleads <;> simp only [Step.kind, before, Nat.add_one_mul] <;> omega
  refine ⟨hpos, hbefore, hbefore ▸ slate.before_lt step.kind_ne_stop hpos, ?_⟩
  cases hleads with
  | delete =>
    simp only [Step.kind, record, hmod, h.orig_eq]
    rfl
  | insert =>
    simp only [Step.kind, record, hdiv, h.target_eq]
    rfl
  | copy _ => rfl

end Slate

namespace Arrival

/-- The second of two arrivals, if it is cheaper. -/
def closer (best arrival : Arrival) : Arrival := if arrival.cost < best.cost then arrival else best

private theorem foldl_closer_closer (a b : Arrival) (arrivals : List Arrival) :
    arrivals.foldl closer (closer a b) = closer a (arrivals.foldl closer b) := by
  induction arrivals generalizing a b with
  | nil => rfl
  | cons arrival arrivals ih =>
    rw [List.foldl_cons, List.foldl_cons, ih, ih b arrival]
    simp only [closer]
    split_ifs <;> first | rfl | omega

theorem cheapest?_cons (arrival : Arrival) (arrivals : List Arrival) :
    cheapest? (arrival :: arrivals) = some (arrivals.foldl closer arrival) := by
  induction arrivals generalizing arrival with
  | nil => rfl
  | cons other arrivals ih =>
    rw [cheapest?, ih, List.foldl_cons, foldl_closer_closer]
    simp only [closer, apply_ite some]

theorem foldl_closer_filter {best : Arrival} {limit : Nat} (h : best.cost ≤ limit)
    (arrivals : List Arrival) :
    (arrivals.filter (·.cost < limit)).foldl closer best = arrivals.foldl closer best := by
  induction arrivals generalizing best with
  | nil => rfl
  | cons arrival arrivals ih =>
    by_cases hlt : arrival.cost < limit
    · have hnext : (closer best arrival).cost ≤ limit := by
        unfold closer
        split <;> omega
      rw [List.filter_cons_of_pos (by simpa using hlt), List.foldl_cons, List.foldl_cons, ih hnext]
    · have hsame : closer best arrival = best := if_neg (by omega)
      rw [List.filter_cons_of_neg (by simpa using hlt), List.foldl_cons, hsame, ih h]

theorem getD_cheapest?_filter (best : Arrival) (arrivals : List Arrival) :
    (cheapest? (arrivals.filter (·.cost < best.cost))).getD best = arrivals.foldl closer best := by
  induction arrivals with
  | nil => rfl
  | cons arrival arrivals ih =>
    by_cases hlt : arrival.cost < best.cost
    · have hnext : closer best arrival = arrival := if_pos hlt
      rw [List.filter_cons_of_pos (by simpa using hlt), cheapest?_cons, Option.getD_some,
        foldl_closer_filter (Nat.le_of_lt hlt), List.foldl_cons, hnext]
    · have hsame : closer best arrival = best := if_neg hlt
      rw [List.filter_cons_of_neg (by simpa using hlt), ih, List.foldl_cons, hsame]

end Arrival

namespace Nearest
variable {orig target : Bytes} {x y : Nat}

/-- What is kept of an arrival. -/
def Mark.of (arrival : Arrival) : Mark :=
  ⟨(arrival.trail.head?.map Step.kind).getD .stop, arrival.cost⟩

private theorem mark_foldl_extend (make : UInt8 → Step) {kind : Kind}
    (hmake : ∀ byte, (make byte).kind = kind) {from? : Option (UInt8 × Arrival)}
    {from'? : Option (Nat × Mark)}
    (h : Option.Rel (fun seen entry => seen.2 = Mark.of entry.2) from'? from?) (best : Arrival) :
    Mark.of ((extend make from?).foldl Arrival.closer best) = nearer kind from'? (Mark.of best) := by
  cases h with
  | none => rfl
  | @some seen entry hseen =>
    have hlength : seen.2.length = entry.2.cost := by rw [hseen, Mark.of]
    by_cases hlt : (entry.2.cost + 1) % UInt32.size < best.cost
    · simp [extend, Arrival.closer, nearer, hlength, Mark.of, hlt, hmake]
    · simp [extend, Arrival.closer, nearer, hlength, Mark.of, hlt]

private theorem inner_eq (left above diagonal : Option (UInt8 × Arrival)) :
    lattice.inner left above diagonal =
      (extend .insert above ++ extend .copy diagonal).foldl Arrival.closer
        ((extend .delete left).getLastD ⟨farthest, []⟩) := by
  cases left with
  | none => exact Arrival.getD_cheapest?_filter ⟨farthest, []⟩ _
  | some entry =>
    have hcap : (entry.2.cost + 1) % UInt32.size ≤ farthest :=
      Nat.le_sub_one_of_lt (Nat.mod_lt _ (by decide))
    simp only [lattice, extend, List.singleton_append, Arrival.cheapest?_cons, Option.getD_some]
    exact Arrival.foldl_closer_filter hcap _

theorem follows : rule.Follows lattice fun _ arrival mark => mark = Mark.of arrival where
  origin := rfl
  inner {pos left above diagonal left' above' diagonal'} _ hleft habove hdiagonal := by
    rw [inner_eq, List.foldl_append, mark_foldl_extend .copy (fun _ => rfl) hdiagonal,
      mark_foldl_extend .insert (fun _ => rfl) habove]
    cases hleft with
    | none => rfl
    | @some seen entry hseen =>
      have hlength : seen.2.length = entry.2.cost := by rw [hseen, Mark.of]
      simp [rule, hlength, extend, Mark.of, Step.kind]

/-- The path of a cell comes from a cell that a step leads from, if it has any steps. -/
theorem trail_cellAt (hx : x ≤ orig.length) (hy : y ≤ target.length) :
    (lattice.cellAt orig target x y).trail = [] ∨
      ∃ step x' y', Leads orig.toArray target.toArray x' y' step x y ∧
        (lattice.cellAt orig target x y).trail =
          step :: (lattice.cellAt orig target x' y').trail := by
  by_cases hxy : x = 0 ∧ y = 0
  · obtain ⟨rfl, rfl⟩ := hxy
    exact .inl (by rw [Lattice.cellAt_zero]; rfl)
  · have hcell := lattice.cellAt_eq hx hy (by omega)
    rw [hcell]
    rcases inner_cases
        (if 0 < x then some (byteAt orig.toArray x, lattice.cellAt orig target (x - 1) y) else none)
        (if 0 < y then some (byteAt target.toArray y, lattice.cellAt orig target x (y - 1)) else none)
        (if 0 < x ∧ 0 < y ∧ byteAt orig.toArray x = byteAt target.toArray y then
          some (byteAt orig.toArray x, lattice.cellAt orig target (x - 1) (y - 1)) else none) with
      ⟨byte, before, hf, ht⟩ | ⟨byte, before, hf, ht⟩ | ⟨byte, before, hf, ht⟩ | ⟨-, ht⟩
    · split at hf <;> cases hf
      obtain ⟨x, rfl⟩ := Nat.exists_eq_add_one_of_ne_zero (Nat.ne_of_gt ‹0 < x›)
      exact .inr ⟨_, _, _, .delete, ht⟩
    · split at hf <;> cases hf
      obtain ⟨y, rfl⟩ := Nat.exists_eq_add_one_of_ne_zero (Nat.ne_of_gt ‹0 < y›)
      exact .inr ⟨_, _, _, .insert, ht⟩
    · split at hf <;> cases hf
      next hboth =>
      obtain ⟨x, rfl⟩ := Nat.exists_eq_add_one_of_ne_zero (Nat.ne_of_gt hboth.1)
      obtain ⟨y, rfl⟩ := Nat.exists_eq_add_one_of_ne_zero (Nat.ne_of_gt hboth.2.1)
      exact .inr ⟨_, _, _, .copy hboth.2.2, ht⟩
    · exact .inl ht

/-- The walk from a cell writes down the path of the cell. -/
theorem walk_eq {slate : Slate Mark}
    (h : slate.Holds lattice (fun _ arrival mark => mark = Mark.of arrival) orig target)
    (hx : x ≤ orig.length) (hy : y ≤ target.length) (runs : Runs) :
    walk slate (x + y * slate.width) runs =
      (lattice.cellAt orig target x y).trail.foldlM Runs.take runs := by
  generalize hpos : x + y * slate.width = pos
  induction pos using Nat.strongRecOn generalizing x y runs with
  | ind pos ih =>
    subst hpos
    have hmark := h.shows_cell hx hy
    rw [walk]
    rcases trail_cellAt hx hy with ht | ⟨step, x', y', hleads, ht⟩
    · rw [ht]
      simp [hmark, Mark.of, ht]
      rfl
    · have hkind : slate.cells[x + y * slate.width]!.kind = step.kind := by
        simp [hmark, Mark.of, ht]
      obtain ⟨hpos, hbefore, hless, hrecord⟩ := h.walk_step hx hleads runs
      rw [dif_neg hpos, ht, List.foldlM_cons]
      simp only [hkind, dif_neg step.kind_ne_stop, hbefore, hrecord]
      cases runs.take step with
      | error fault => rfl
      | ok after =>
        exact ih _ hless (hleads.le_left.trans hx) (hleads.le_right.trans hy) after rfl

end Nearest

namespace Priced
variable (prices : PriceTable) {orig target : Bytes} {x y : Nat}

/-- How a cell is arrived at by a step of a kind. -/
def Cell.by? : Cell → Kind → Option Arrival
  | .inner delete _ _, .delete => some delete
  | .inner _ insert _, .insert => some insert
  | .inner _ _ copy, .copy => some copy
  | _, _ => none

/-- The costs of a cell are kept, except those of the origin. -/
def Shows (pos : Nat) (cell : Cell) (costs : Costs) : Prop :=
  match cell with
  | .origin => pos = 0
  | .inner delete insert copy => pos ≠ 0 ∧ costs = ⟨delete.cost, insert.cost, copy.cost⟩

/-- The path arrives at the cell by a step of the kind, or has no steps. -/
def Cell.Via (cell : Cell) (kind : Kind) (trail : Path) : Prop :=
  kind = .stop ∧ trail = [] ∨
    ∃ arrival, cell.by? kind = some arrival ∧ arrival.cost < ceiling ∧ trail = arrival.trail

/-- The cost and the kind of the best step so far are those of the best arrival so far. -/
private structure Matches (cell : Cell) (best : Nat × Kind) (arrival : Arrival) : Prop where
  cost_eq : best.1 = arrival.cost
  cost_le : arrival.cost ≤ ceiling
  via : cell.Via best.2 arrival.trail

private theorem matches_closer {cell : Cell} {best : Nat × Kind} {bestWay arrival : Arrival}
    (kind next : Kind) (h : Matches cell best bestWay) (harrival : cell.by? kind = some arrival) :
    Matches cell
      (if min ceiling (arrival.cost + (prices kind next).toNat) < best.1 then
        (min ceiling (arrival.cost + (prices kind next).toNat), kind) else best)
      (bestWay.closer (after prices kind next arrival)) := by
  obtain ⟨hcost, hle, hvia⟩ := h
  by_cases hlt : min ceiling (arrival.cost + (prices kind next).toNat) < best.1
  · have hcloser : bestWay.closer (after prices kind next arrival) = after prices kind next arrival :=
      if_pos (hcost ▸ hlt)
    rw [if_pos hlt, hcloser]
    exact ⟨rfl, Nat.min_le_left _ _, .inr ⟨arrival, harrival, by omega, rfl⟩⟩
  · have hcloser : bestWay.closer (after prices kind next arrival) = bestWay :=
      if_neg (hcost ▸ hlt)
    rw [if_neg hlt, hcloser]
    exact ⟨hcost, hle, hvia⟩

/-- What is kept of a cell is enough to choose the cheapest way out of it. -/
theorem exit_spec (next : Kind) {pos : Nat} {cell : Cell} {costs : Costs}
    (h : Shows pos cell costs) :
    (exit prices next (pos, costs)).1 = (leave prices cell next).cost ∧
      cell.Via (exit prices next (pos, costs)).2 (leave prices cell next).trail := by
  cases cell with
  | origin =>
    cases h
    exact ⟨rfl, .inl ⟨rfl, rfl⟩⟩
  | inner delete insert copy =>
    obtain ⟨hpos, rfl⟩ := h
    have hstart : Matches (.inner delete insert copy) (ceiling, .stop) nowhere :=
      ⟨rfl, Nat.le_refl _, .inl ⟨rfl, rfl⟩⟩
    have hdelete := matches_closer prices .delete next hstart rfl
    have hinsert := matches_closer prices .insert next hdelete rfl
    have hcopy := matches_closer prices .copy next hinsert rfl
    have hleave : leave prices (.inner delete insert copy) next =
        [after prices .delete next delete, after prices .insert next insert,
          after prices .copy next copy].foldl Arrival.closer nowhere :=
      Arrival.getD_cheapest?_filter nowhere _
    rw [hleave, exit, if_neg hpos]
    exact ⟨hcopy.cost_eq, hcopy.via⟩

theorem follows : (rule prices).Follows (lattice prices) Shows where
  origin := rfl
  inner {pos left above diagonal left' above' diagonal'} hpos hleft habove hdiagonal := by
    have arrive_eq (make : UInt8 → Step) (next : Kind) {from? : Option (UInt8 × Cell)}
        {from'? : Option (Nat × Costs)}
        (h : Option.Rel (fun seen entry => Shows seen.1 entry.2 seen.2) from'? from?) :
        rule.arrive prices next from'? = (extend prices make next from?).cost := by
      cases h with
      | none => rfl
      | some hseen => exact (exit_spec prices next hseen).1
    refine ⟨hpos, ?_⟩
    simp only [rule, arrive_eq .delete .delete hleft, arrive_eq .insert .insert habove,
      arrive_eq .copy .copy hdiagonal]

/-- An arrival that is not too dear comes from a cell that a step leads from. -/
theorem trail_cellAt (hx : x ≤ orig.length) (hy : y ≤ target.length) {kind : Kind}
    {arrival : Arrival}
    (harrival : ((lattice prices).cellAt orig target x y).by? kind = some arrival)
    (hcost : arrival.cost < ceiling) :
    ∃ step x' y', Leads orig.toArray target.toArray x' y' step x y ∧ step.kind = kind ∧
      arrival.trail =
        step :: (leave prices ((lattice prices).cellAt orig target x' y') kind).trail := by
  by_cases hxy : x = 0 ∧ y = 0
  · obtain ⟨rfl, rfl⟩ := hxy
    rw [Lattice.cellAt_zero] at harrival
    cases harrival
  · have hcell := (lattice prices).cellAt_eq hx hy (by omega)
    rw [hcell] at harrival
    cases kind with
    | stop => cases harrival
    | delete =>
      cases harrival
      by_cases hx0 : 0 < x
      · obtain ⟨x, rfl⟩ := Nat.exists_eq_add_one_of_ne_zero (Nat.ne_of_gt hx0)
        refine ⟨_, _, _, .delete, rfl, ?_⟩
        rw [if_pos hx0]
        rfl
      · simp [extend, nowhere, hx0] at hcost
    | insert =>
      cases harrival
      by_cases hy0 : 0 < y
      · obtain ⟨y, rfl⟩ := Nat.exists_eq_add_one_of_ne_zero (Nat.ne_of_gt hy0)
        refine ⟨_, _, _, .insert, rfl, ?_⟩
        rw [if_pos hy0]
        rfl
      · simp [extend, nowhere, hy0] at hcost
    | copy =>
      cases harrival
      by_cases hboth : 0 < x ∧ 0 < y ∧ byteAt orig.toArray x = byteAt target.toArray y
      · obtain ⟨x, rfl⟩ := Nat.exists_eq_add_one_of_ne_zero (Nat.ne_of_gt hboth.1)
        obtain ⟨y, rfl⟩ := Nat.exists_eq_add_one_of_ne_zero (Nat.ne_of_gt hboth.2.1)
        refine ⟨_, _, _, .copy hboth.2.2, rfl, ?_⟩
        rw [if_pos hboth]
        rfl
      · simp [extend, nowhere, hboth] at hcost

theorem walk_zero (slate : Slate Costs) (next : Kind) (runs : Runs) :
    walk prices slate 0 (exitAt prices slate next 0).2 runs = .ok runs := by
  rw [walk]
  rfl

/-- The walk from a cell that is arrived at by a kind of step writes down the path that arrives. -/
theorem walk_eq {slate : Slate Costs} (h : slate.Holds (lattice prices) Shows orig target)
    (hx : x ≤ orig.length) (hy : y ≤ target.length) {kind : Kind} {trail : Path}
    (hvia : ((lattice prices).cellAt orig target x y).Via kind trail) (runs : Runs) :
    walk prices slate (x + y * slate.width) kind runs = trail.foldlM Runs.take runs := by
  generalize hpos : x + y * slate.width = pos
  induction pos using Nat.strongRecOn generalizing x y kind trail runs with
  | ind pos ih =>
    subst hpos
    rw [walk]
    rcases hvia with ⟨rfl, rfl⟩ | ⟨arrival, harrival, hcost, rfl⟩
    · rfl
    · obtain ⟨step, x', y', hleads, rfl, ht⟩ := trail_cellAt prices hx hy harrival hcost
      obtain ⟨-, hbefore, hless, hrecord⟩ := h.walk_step hx hleads runs
      have hx' := hleads.le_left.trans hx
      have hy' := hleads.le_right.trans hy
      rw [dif_neg step.kind_ne_stop, ht, List.foldlM_cons]
      simp only [hbefore, hrecord]
      cases runs.take step with
      | error fault => rfl
      | ok after =>
        by_cases hzero : x' + y' * slate.width = 0
        · obtain ⟨rfl, rfl⟩ := Slate.place_eq_zero_iff.1 hzero
          simp only [dif_pos hzero, Lattice.cellAt_zero]
          rfl
        · have hrest := exit_spec prices step.kind (h.shows_cell hx' hy')
          simp only [dif_neg hzero]
          exact ih _ hless hx' hy' hrest.2 after rfl

end Priced

end BytePatch
