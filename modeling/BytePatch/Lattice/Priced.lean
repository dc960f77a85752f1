import BytePatch.Lattice.Nearest
/-!
The lattice in which a step is priced by its kind and the kind of the step before it, so that
going on with a run can be cheaper than starting one. Costs stop at the largest 32-bit number,
which also stands for a place that cannot be reached.
-/
namespace BytePatch

/-- What a step of the second kind costs after one of the first. The start and the end of a path
count as `stop`. -/
abbrev PriceTable := Kind → Kind → UInt32

namespace PriceTable

/-- An op takes an opcode and a run length, an inserted byte takes itself. -/
def encoding : PriceTable
  | .stop, .stop | .delete, .stop | .insert, .stop | .copy, .stop => 0
  | .delete, .delete | .copy, .copy => 0
  | .insert, .insert => 1
  | _, .insert => 3
  | _, _ => 2

/-- The table with the given entry in each row and column, `stop` being the first of both. -/
def ofFun (entry : Nat → Nat → UInt32) : PriceTable := fun last next => entry last.index next.index

def rows (prices : PriceTable) : List (List UInt32) :=
  Kind.all.map fun last => Kind.all.map (prices last)

end PriceTable

namespace Priced

/-- The cost from which on a place counts as unreachable. -/
def ceiling : Nat := UInt32.size - 1

/-- The cheapest ways to arrive by each kind of step. Before the origin there is no step. -/
inductive Cell where
  | origin
  | inner (delete insert copy : Arrival)
deriving DecidableEq

/-- What stands in for an arrival where there is none. -/
def nowhere : Arrival := ⟨ceiling, []⟩

variable (prices : PriceTable)

/-- The cost of an arrival by a step of kind `last` once a step of kind `next` follows. -/
def after (last next : Kind) (arrival : Arrival) : Arrival :=
  { arrival with cost := min ceiling (arrival.cost + (prices last next).toNat) }

/-- The cheapest way to leave a cell by a step of the given kind. Deletes come before inserts
and inserts before copies if they are equally cheap. -/
def leave (cell : Cell) (next : Kind) : Arrival :=
  match cell with
  | .origin => ⟨(prices .stop next).toNat, []⟩
  | .inner delete insert copy =>
    let ways := [after prices .delete next delete, after prices .insert next insert,
      after prices .copy next copy]
    (Arrival.cheapest? (ways.filter (·.cost < ceiling))).getD nowhere

/-- The way to arrive over one neighbour. -/
def extend (make : UInt8 → Step) (next : Kind) : Option (UInt8 × Cell) → Arrival
  | none => nowhere
  | some (byte, before) =>
    let way := leave prices before next
    ⟨way.cost, make byte :: way.trail⟩

def lattice : Lattice Cell where
  origin := .origin
  inner left above diagonal :=
    .inner (extend prices .delete .delete left) (extend prices .insert .insert above)
      (extend prices .copy .copy diagonal)

/-- The way out of the last cell: its cost is that of the whole path. -/
def way (orig target : Bytes) : Arrival := leave prices ((lattice prices).last orig target) .stop

/-- A cheapest path from the ends of both strings back to their starts, and no steps at all if
every path costs too much to be told from an unreachable place. -/
def trail (orig target : Bytes) : Path := (way prices orig target).trail

/-- Every arrival below the ceiling joins the two prefixes of its cell. -/
private def Sound (orig target : Bytes) : Cell → Prop
  | .origin => orig = [] ∧ target = []
  | .inner delete insert copy => ∀ arrival ∈ [delete, insert, copy],
    arrival.cost < ceiling → arrival.trail.Joins orig target

private theorem lt_of_after {last next : Kind} {arrival : Arrival}
    (h : (after prices last next arrival).cost < ceiling) : arrival.cost < ceiling := by
  simp only [after] at h
  omega

private theorem joins_leave {orig target : Bytes} {cell : Cell} (h : Sound orig target cell)
    (next : Kind) (hc : (leave prices cell next).cost < ceiling) :
    (leave prices cell next).trail.Joins orig target := by
  cases cell with
  | origin => obtain ⟨rfl, rfl⟩ := h; exact ⟨rfl, rfl⟩
  | inner delete insert copy =>
    simp only [leave] at hc ⊢
    cases hb : Arrival.cheapest? _ with
    | none => rw [hb] at hc; simp [nowhere] at hc
    | some best =>
      simp only [Option.getD_some]
      have hm := Arrival.mem_of_cheapest? hb
      simp only [List.mem_filter, List.mem_cons, List.not_mem_nil, or_false,
        decide_eq_true_eq] at hm
      obtain ⟨hm | hm | hm, hlt⟩ := hm <;> subst hm
      · exact h delete (by simp) (lt_of_after prices hlt)
      · exact h insert (by simp) (lt_of_after prices hlt)
      · exact h copy (by simp) (lt_of_after prices hlt)

private theorem extend_joins {orig target : Bytes} {from? : Option (UInt8 × Cell)} {next : Kind}
    {make : UInt8 → Step} (hc : (extend prices make next from?).cost < ceiling)
    (hs : ∀ byte cell, from? = some (byte, cell) → ∃ before across,
      Sound before across cell ∧
      ∀ trail : Path, trail.Joins before across → Path.Joins (make byte :: trail) orig target) :
    (extend prices make next from?).trail.Joins orig target := by
  cases from? with
  | none => simp [extend, nowhere] at hc
  | some pair =>
    obtain ⟨byte, cell⟩ := pair
    obtain ⟨before, across, hsound, hstep⟩ := hs byte cell rfl
    exact hstep _ (joins_leave prices hsound next hc)

private theorem sound : (lattice prices).Invariant Sound where
  origin := ⟨rfl, rfl⟩
  inner {orig target left above diagonal} any edge fromLeft fromAbove fromDiagonal := by
    intro arrival hm hc
    simp only [List.mem_cons, List.not_mem_nil, or_false] at hm
    rcases hm with rfl | rfl | rfl
    · refine extend_joins prices hc fun byte cell hf => ?_
      obtain ⟨before, rfl, h⟩ := fromLeft byte cell hf
      exact ⟨before, target, h, fun trail ht =>
        ⟨by rw [Path.left, ht.left_eq], by rw [Path.right, ht.right_eq]⟩⟩
    · refine extend_joins prices hc fun byte cell hf => ?_
      obtain ⟨before, rfl, h⟩ := fromAbove byte cell hf
      exact ⟨orig, before, h, fun trail ht =>
        ⟨by rw [Path.left, ht.left_eq], by rw [Path.right, ht.right_eq]⟩⟩
    · refine extend_joins prices hc fun byte cell hf => ?_
      obtain ⟨before, across, rfl, rfl, h⟩ := fromDiagonal byte cell hf
      exact ⟨before, across, h, fun trail ht =>
        ⟨by rw [Path.left, ht.left_eq], by rw [Path.right, ht.right_eq]⟩⟩

/-- A path whose cost is below the ceiling leads all the way. -/
theorem joins_trail {orig target : Bytes} (h : (way prices orig target).cost < ceiling) :
    (trail prices orig target).Joins orig.reverse target.reverse :=
  joins_leave prices ((sound prices).last orig target) .stop h

theorem trail_leave_eq_nil {cell : Cell} {next : Kind}
    (h : ceiling ≤ (leave prices cell next).cost) : (leave prices cell next).trail = [] := by
  cases cell with
  | origin => rfl
  | inner delete insert copy =>
    simp only [leave] at h ⊢
    cases hb : Arrival.cheapest? _ with
    | none => rfl
    | some best =>
      have hm := Arrival.mem_of_cheapest? hb
      rw [hb, Option.getD_some] at h
      simp only [List.mem_filter, decide_eq_true_eq] at hm
      omega

/-- Without a cheap enough path there are no steps. -/
theorem trail_eq_nil {orig target : Bytes} (h : ceiling ≤ (way prices orig target).cost) :
    trail prices orig target = [] :=
  trail_leave_eq_nil prices h

end Priced

end BytePatch
