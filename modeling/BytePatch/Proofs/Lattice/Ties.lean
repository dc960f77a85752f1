import Mathlib.Data.List.Lex
import Mathlib.Data.Prod.Lex
import BytePatch.Proofs.Lattice.Optimum

/-! Which of several cheapest paths is chosen. In each cell a way is preferred by the kind of its
last step, and going back from cell to cell these choices add up to the path that comes first in the
order of a dictionary. -/
namespace BytePatch

namespace Path

/-- The kinds of the steps by number, in the order in which they are preferred. -/
def ranks (path : Path) : List Nat := path.map (·.kind.index)

/-- A path that no other is better than, and that comes before all others that are as good: where
the two are read from their ends back and first differ, it has a delete and the other has not, or it
has an insert and the other a copy. -/
structure Foremost (price : Path → Nat) (orig target : Bytes) (path : Path) : Prop where
  joins : path.Joins orig target
  least : ∀ other : Path, other.Joins orig target → price path ≤ price other
  first : ∀ other : Path, other.Joins orig target → price other = price path →
    other = path ∨ List.Lex (· < ·) (ranks path.reverse) (ranks other.reverse)

theorem Foremost.unique {price : Path → Nat} {orig target : Bytes} {path other : Path}
    (h : Foremost price orig target path) (h' : Foremost price orig target other) :
    path = other := by
  have hprice : price other = price path :=
    Nat.le_antisymm (h'.least path h.joins) (h.least other h'.joins)
  rcases h.first other h'.joins hprice with heq | hbefore
  · exact heq.symm
  · rcases h'.first path h.joins hprice.symm with heq | hafter
    · exact heq
    · exact absurd hafter (asymm_of (List.Lex (· < ·)) hbefore)

private theorem eq_of_ranks {path other : Path} {orig target : Bytes} (h : path.Joins orig target)
    (h' : other.Joins orig target) (hranks : path.ranks = other.ranks) : path = other := by
  induction path generalizing other orig target with
  | nil =>
    cases other with
    | nil => rfl
    | cons step other => cases hranks
  | cons step path ih =>
    cases other with
    | nil => cases hranks
    | cons step' other =>
      obtain ⟨rfl, rfl⟩ := h
      obtain ⟨hleft, hright⟩ := h'
      obtain ⟨hkind, hrest⟩ : step.kind.index = step'.kind.index ∧ ranks path = ranks other :=
        List.cons.inj hranks
      cases step <;> cases step' <;> simp [Step.kind, Kind.index] at hkind <;>
        simp only [left, right, List.cons.injEq] at hleft hright
      · rw [hleft.1, ih ⟨rfl, rfl⟩ ⟨hleft.2, hright⟩ hrest]
      · rw [hright.1, ih ⟨rfl, rfl⟩ ⟨hleft, hright.2⟩ hrest]
      · rw [hleft.1, ih ⟨rfl, rfl⟩ ⟨hleft.2, hright.2⟩ hrest]

/-- How good a path is that is given last step first, and its rank among equally good ones. -/
def key (cost : Nat) (trail : Path) : ℕ ×ₗ List ℕ := toLex (cost, trail.ranks)

theorem key_nil_le (cost : Nat) (trail : Path) : key cost [] ≤ key cost trail := by
  refine Prod.Lex.toLex_le_toLex.2 (.inr ⟨rfl, ?_⟩)
  rcases List.lex_nil_or_eq_nil (r := (· < ·)) trail.ranks with h | h
  · exact le_of_lt h
  · exact le_of_eq h.symm

/-- What comes before stays before if both go on with a step of one kind, at the same price. -/
theorem key_cons_le {cost cost' : Nat} {trail trail' : Path} (h : key cost trail ≤ key cost' trail')
    (extra : Nat) {step step' : Step} (hkind : step.kind = step'.kind) :
    key (cost + extra) (step :: trail) ≤ key (cost' + extra) (step' :: trail') := by
  rcases Prod.Lex.toLex_le_toLex.1 h with hlt | ⟨heq, hle⟩
  · exact Prod.Lex.toLex_le_toLex.2 (.inl (Nat.add_lt_add_right hlt extra))
  · refine Prod.Lex.toLex_le_toLex.2 (.inr ⟨congrArg (· + extra) heq, ?_⟩)
    have hranks : ranks (step :: trail) = step'.kind.index :: ranks trail := by
      rw [← hkind]
      rfl
    rw [hranks]
    rcases le_iff_eq_or_lt.1 hle with heq | hlt
    · exact le_of_eq (congrArg (step'.kind.index :: ·) heq)
    · exact le_of_lt (List.Lex.cons hlt)

theorem key_mono {cost cost' : Nat} (h : cost ≤ cost') (trail : Path) :
    key cost trail ≤ key cost' trail :=
  Prod.Lex.toLex_le_toLex.2 ((Nat.lt_or_eq_of_le h).imp id fun heq => ⟨heq, le_refl _⟩)

theorem foremost_of_key_le {price : Path → Nat} {orig target : Bytes} {trail : Path}
    (hjoins : trail.Joins orig.reverse target.reverse)
    (hkey : ∀ other : Path, other.Joins orig.reverse target.reverse →
      key (price trail.reverse) trail ≤ key (price other.reverse) other) :
    Foremost price orig target trail.reverse := by
  have hback := hjoins.reverse
  rw [List.reverse_reverse, List.reverse_reverse] at hback
  have hle (other : Path) (h : other.Joins orig target) :
      key (price trail.reverse) trail ≤ key (price other) other.reverse := by
    simpa using hkey other.reverse h.reverse
  refine ⟨hback, fun other h => ?_, fun other h hprice => ?_⟩
  · exact (Prod.Lex.toLex_le_toLex.1 (hle other h)).elim Nat.le_of_lt fun heq => Nat.le_of_eq heq.1
  · rw [List.reverse_reverse]
    rcases Prod.Lex.toLex_le_toLex.1 (hle other h) with hlt | ⟨-, hranks⟩
    · exact absurd hprice (Nat.ne_of_gt hlt)
    · refine (le_iff_eq_or_lt.1 hranks).imp (fun heq => ?_) id
      rw [eq_of_ranks hjoins h.reverse heq, List.reverse_reverse]

end Path

namespace Arrival

def key (arrival : Arrival) : ℕ ×ₗ List ℕ := Path.key arrival.cost arrival.trail

/-- Of ways in their order the one that is chosen comes before all others. -/
theorem key_le_of_cheapest? {arrivals : List Arrival}
    (hsorted : arrivals.Pairwise fun a b => a.trail.ranks ≤ b.trail.ranks) {best : Arrival}
    (h : cheapest? arrivals = some best) {arrival : Arrival} (ha : arrival ∈ arrivals) :
    best.key ≤ arrival.key := by
  induction arrivals generalizing best arrival with
  | nil => cases ha
  | cons first others ih =>
    obtain ⟨hfirst, hothers⟩ := List.pairwise_cons.1 hsorted
    unfold cheapest? at h
    cases ho : cheapest? others with
    | none =>
      rw [ho] at h
      cases h
      rcases List.mem_cons.1 ha with rfl | ha
      · exact le_refl _
      · have hsome := isSome_cheapest? (List.ne_nil_of_mem ha)
        rw [ho] at hsome
        cases hsome
    | some other =>
      rw [ho] at h
      simp only at h
      split at h <;> cases h
      · next hlt =>
        rcases List.mem_cons.1 ha with rfl | ha
        · exact Prod.Lex.toLex_le_toLex.2 (.inl hlt)
        · exact ih hothers ho ha
      · next hge =>
        rcases List.mem_cons.1 ha with rfl | ha
        · exact le_refl _
        · have hother : first.key ≤ other.key := Prod.Lex.toLex_le_toLex.2 <|
            (Nat.lt_or_eq_of_le (Nat.le_of_not_lt hge)).imp id fun heq =>
              ⟨heq, hfirst other (mem_of_cheapest? ho)⟩
          exact hother.trans (ih hothers ho ha)

/-- Ways whose last steps are of different kinds stand in the order of these kinds. -/
theorem ranks_le {a b : Arrival} {kind kind' : Kind} (ha : a.trail.head?.map Step.kind = some kind)
    (hb : b.trail.head?.map Step.kind = some kind') (h : kind.index < kind'.index) :
    a.trail.ranks ≤ b.trail.ranks := by
  obtain ⟨step, htrail, rfl⟩ := Option.map_eq_some_iff.1 ha
  obtain ⟨step', htrail', rfl⟩ := Option.map_eq_some_iff.1 hb
  obtain ⟨rest, ha⟩ := List.head?_eq_some_iff.1 htrail
  obtain ⟨rest', hb⟩ := List.head?_eq_some_iff.1 htrail'
  rw [ha, hb]
  exact le_of_lt (List.Lex.rel h)

end Arrival

namespace Nearest

private theorem exists_of_mem_extend {make : UInt8 → Step} {from? : Option (UInt8 × Arrival)}
    {arrival : Arrival} (h : arrival ∈ extend make from?) : ∃ byte before,
    from? = some (byte, before) ∧
      arrival = ⟨(before.cost + 1) % UInt32.size, make byte :: before.trail⟩ := by
  unfold extend at h
  split at h
  · cases h
  · next byte before => exact ⟨byte, before, rfl, List.mem_singleton.1 h⟩

/-- The ways to arrive over three neighbours of which one is chosen. -/
private def ways (left above diagonal : Option (UInt8 × Arrival)) : List Arrival :=
  extend .delete left ++
    (extend .insert above ++ extend .copy diagonal).filter (·.cost < farthest)

private theorem inner_eq_ways (left above diagonal : Option (UInt8 × Arrival)) :
    lattice.inner left above diagonal =
      (Arrival.cheapest? (ways left above diagonal)).getD ⟨farthest, []⟩ := rfl

private theorem head_of_mem_extend (make : UInt8 → Step) {kind : Kind}
    (hkind : ∀ byte, (make byte).kind = kind) {from? : Option (UInt8 × Arrival)} {arrival : Arrival}
    (h : arrival ∈ extend make from?) : arrival.trail.head?.map Step.kind = some kind := by
  obtain ⟨byte, before, -, rfl⟩ := exists_of_mem_extend h
  exact congrArg some (hkind byte)

private theorem sorted_extend (make : UInt8 → Step) (from? : Option (UInt8 × Arrival)) :
    (extend make from?).Pairwise fun a b => a.trail.ranks ≤ b.trail.ranks := by
  unfold extend
  split
  · exact .nil
  · exact List.pairwise_singleton _ _

private theorem sorted_ways (left above diagonal : Option (UInt8 × Arrival)) :
    (ways left above diagonal).Pairwise fun a b => a.trail.ranks ≤ b.trail.ranks := by
  have hdelete {a : Arrival} (ha : a ∈ extend .delete left) :
      a.trail.head?.map Step.kind = some .delete := head_of_mem_extend .delete (fun _ => rfl) ha
  have hinsert {a : Arrival} (ha : a ∈ extend .insert above) :
      a.trail.head?.map Step.kind = some .insert := head_of_mem_extend .insert (fun _ => rfl) ha
  have hcopy {a : Arrival} (ha : a ∈ extend .copy diagonal) :
      a.trail.head?.map Step.kind = some .copy := head_of_mem_extend .copy (fun _ => rfl) ha
  refine List.pairwise_append.2 ⟨sorted_extend _ _, .filter _ (List.pairwise_append.2
    ⟨sorted_extend _ _, sorted_extend _ _, fun a ha b hb => ?_⟩), fun a ha b hb => ?_⟩
  · exact Arrival.ranks_le (hinsert ha) (hcopy hb) (by decide)
  · rcases List.mem_append.1 (List.mem_filter.1 hb).1 with hb | hb
    · exact Arrival.ranks_le (hdelete ha) (hinsert hb) (by decide)
    · exact Arrival.ranks_le (hdelete ha) (hcopy hb) (by decide)

private theorem key_inner_le {left above diagonal : Option (UInt8 × Arrival)} {way : Arrival}
    (h : way ∈ ways left above diagonal) : (lattice.inner left above diagonal).key ≤ way.key := by
  obtain ⟨best, hbest⟩ :=
    Option.isSome_iff_exists.1 (Arrival.isSome_cheapest? (List.ne_nil_of_mem h))
  rw [inner_eq_ways, hbest]
  exact Arrival.key_le_of_cheapest? (sorted_ways left above diagonal) hbest h

private theorem counted : lattice.Invariant fun orig target arrival =>
    orig.length + target.length < farthest →
      arrival.cost = arrival.trail.length ∧ arrival.cost ≤ orig.length + target.length where
  origin _ := ⟨rfl, Nat.le_refl _⟩
  inner {orig target left above diagonal} any edge fromLeft fromAbove fromDiagonal hshort := by
    have further {make : UInt8 → Step} {from? : Option (UInt8 × Arrival)}
        (hnear : ∀ byte before, from? = some (byte, before) →
          before.cost = before.trail.length ∧ before.cost < orig.length + target.length)
        {arrival : Arrival} (hm : arrival ∈ extend make from?) :
        arrival.cost = arrival.trail.length ∧ arrival.cost ≤ orig.length + target.length := by
      obtain ⟨byte, before, hf, rfl⟩ := exists_of_mem_extend hm
      obtain ⟨hcost, hlt⟩ := hnear byte before hf
      have hword : (before.cost + 1) % UInt32.size = before.cost + 1 :=
        Nat.mod_eq_of_lt (Nat.lt_trans (Nat.lt_of_le_of_lt hlt hshort) (by decide))
      exact ⟨hword.trans (congrArg (· + 1) hcost), hword.trans_le hlt⟩
    have hleft {arrival : Arrival} (hm : arrival ∈ extend .delete left) := by
      refine further (fun byte before hf => ?_) hm
      obtain ⟨_, rfl, h⟩ := fromLeft byte before hf
      rw [List.length_cons] at hshort ⊢
      obtain ⟨hcost, hle⟩ := h (by omega)
      exact ⟨hcost, by omega⟩
    have habove {arrival : Arrival} (hm : arrival ∈ extend .insert above) := by
      refine further (fun byte before hf => ?_) hm
      obtain ⟨_, rfl, h⟩ := fromAbove byte before hf
      rw [List.length_cons] at hshort ⊢
      obtain ⟨hcost, hle⟩ := h (by omega)
      exact ⟨hcost, by omega⟩
    have hdiagonal {arrival : Arrival} (hm : arrival ∈ extend .copy diagonal) := by
      refine further (fun byte before hf => ?_) hm
      obtain ⟨_, _, rfl, rfl, h⟩ := fromDiagonal byte before hf
      rw [List.length_cons, List.length_cons] at hshort ⊢
      obtain ⟨hcost, hle⟩ := h (by omega)
      exact ⟨hcost, by omega⟩
    have hsome : ways left above diagonal ≠ [] := by
      rcases any with hl | ha
      · obtain ⟨pair, rfl⟩ := Option.isSome_iff_exists.1 hl
        exact List.cons_ne_nil _ _
      · obtain ⟨⟨byte, before⟩, rfl⟩ := Option.isSome_iff_exists.1 ha
        have hm := List.mem_singleton_self
          (Arrival.mk ((before.cost + 1) % UInt32.size) (.insert byte :: before.trail))
        have hfar := decide_eq_true (Nat.lt_of_le_of_lt (habove hm).2 hshort)
        exact List.ne_nil_of_mem (List.mem_append_right _
          (List.mem_filter.2 ⟨List.mem_append_left _ hm, hfar⟩))
    obtain ⟨best, hbest⟩ := Option.isSome_iff_exists.1 (Arrival.isSome_cheapest? hsome)
    rw [inner_eq_ways, hbest, Option.getD_some]
    rcases List.mem_append.1 (Arrival.mem_of_cheapest? hbest) with hm | hm
    · exact hleft hm
    · rcases List.mem_append.1 (List.mem_filter.1 hm).1 with hm | hm
      · exact habove hm
      · exact hdiagonal hm

private theorem key_inner_le_cons {left above diagonal : Option (UInt8 × Arrival)} {byte : UInt8}
    {before : Arrival} {make : UInt8 → Step} {rest : Path}
    (hkey : before.key ≤ Path.key rest.length rest) (hshort : rest.length + 1 < farthest)
    (hmem : ∀ way ∈ extend make (some (byte, before)), way.cost < farthest →
      way ∈ ways left above diagonal) :
    (lattice.inner left above diagonal).key ≤ Path.key (rest.length + 1) (make byte :: rest) := by
  have hle : before.cost ≤ rest.length :=
    (Prod.Lex.toLex_le_toLex.1 hkey).elim Nat.le_of_lt fun heq => Nat.le_of_eq heq.1
  have hword : (before.cost + 1) % UInt32.size = before.cost + 1 :=
    Nat.mod_eq_of_lt (Nat.lt_trans (Nat.lt_of_le_of_lt (Nat.succ_le_succ hle) hshort) (by decide))
  have hway := hmem _ (List.mem_singleton_self _) <| by
    rw [hword]
    exact Nat.lt_of_le_of_lt (Nat.succ_le_succ hle) hshort
  refine (key_inner_le hway).trans ?_
  rw [Arrival.key, hword]
  exact Path.key_cons_le hkey 1 rfl

private theorem key_cell_le {trail : Path} {orig target : Bytes} (h : trail.Joins orig target)
    (hshort : orig.length + target.length < farthest) :
    (lattice.cell orig target).key ≤ Path.key trail.length trail := by
  induction trail generalizing orig target with
  | nil =>
    obtain ⟨rfl, rfl⟩ := h
    rw [show Path.left [] = [] from rfl, show Path.right [] = [] from rfl, Lattice.cell]
    exact le_refl _
  | cons step rest ih =>
    obtain ⟨rfl, rfl⟩ := h
    have hlong : rest.length + 1 < farthest :=
      Nat.lt_of_le_of_lt (Path.length_le (step :: rest)) hshort
    cases step with
    | delete byte =>
      obtain ⟨above, diagonal, hc⟩ := lattice.cell_of_left byte (Path.left rest) (Path.right rest)
      rw [Path.left, Path.right] at hshort ⊢
      rw [List.length_cons] at hshort
      rw [hc]
      refine key_inner_le_cons (ih ⟨rfl, rfl⟩ (by omega)) hlong fun way hm _ => ?_
      exact List.mem_append_left _ hm
    | insert byte =>
      obtain ⟨left, diagonal, hc⟩ := lattice.cell_of_above byte (Path.left rest) (Path.right rest)
      rw [Path.left, Path.right] at hshort ⊢
      rw [List.length_cons] at hshort
      rw [hc]
      refine key_inner_le_cons (ih ⟨rfl, rfl⟩ (by omega)) hlong fun way hm hfar => ?_
      exact List.mem_append_right _
        (List.mem_filter.2 ⟨List.mem_append_left _ hm, decide_eq_true hfar⟩)
    | copy byte =>
      obtain ⟨left, above, hc⟩ := lattice.cell_of_diagonal byte (Path.left rest) (Path.right rest)
      rw [Path.left, Path.right] at hshort ⊢
      rw [List.length_cons, List.length_cons] at hshort
      rw [hc]
      refine key_inner_le_cons (ih ⟨rfl, rfl⟩ (by omega)) hlong fun way hm hfar => ?_
      exact List.mem_append_right _
        (List.mem_filter.2 ⟨List.mem_append_right _ hm, decide_eq_true hfar⟩)

theorem foremost_trail {orig target : Bytes} (hshort : orig.length + target.length < farthest) :
    Path.Foremost List.length orig target (trail orig target).reverse := by
  have hfar : target.length < farthest := Nat.lt_of_le_of_lt (Nat.le_add_left _ _) hshort
  refine Path.foremost_of_key_le (joins_trail orig hfar) fun other hother => ?_
  have hcost := (counted.last orig target (by simpa using hshort)).1
  have hkey := key_cell_le hother (by simpa using hshort)
  rw [← Lattice.last_eq_cell, Arrival.key, hcost] at hkey
  simpa [trail] using hkey

end Nearest

namespace Priced

variable (prices : PriceTable)

private theorem head_of_cost_lt (make : UInt8 → Step) {last : Kind}
    (hkind : ∀ byte, (make byte).kind = last) (next : Kind) (from? : Option (UInt8 × Cell))
    (h : (after prices last next (extend prices make last from?)).cost < ceiling) :
    (after prices last next (extend prices make last from?)).trail.head?.map Step.kind =
      some last := by
  cases from? with
  | none => exact absurd h (by simp only [after, extend, nowhere]; omega)
  | some pair => exact congrArg some (hkind pair.1)

private def waysOut (left above diagonal : Option (UInt8 × Cell)) (next : Kind) : List Arrival :=
  [after prices .delete next (extend prices .delete .delete left),
    after prices .insert next (extend prices .insert .insert above),
    after prices .copy next (extend prices .copy .copy diagonal)]

private theorem sorted_waysOut (left above diagonal : Option (UInt8 × Cell)) (next : Kind) :
    ((waysOut prices left above diagonal next).filter (·.cost < ceiling)).Pairwise
      fun a b => a.trail.ranks ≤ b.trail.ranks := by
  have hdelete := head_of_cost_lt prices .delete (fun _ => rfl) next left
  have hinsert := head_of_cost_lt prices .insert (fun _ => rfl) next above
  have hcopy := head_of_cost_lt prices .copy (fun _ => rfl) next diagonal
  simp only [waysOut, List.pairwise_filter, List.pairwise_cons, List.mem_cons, List.not_mem_nil,
    or_false, forall_eq_or_imp, forall_eq, decide_eq_true_eq, false_implies, implies_true,
    List.Pairwise.nil, and_true]
  exact ⟨⟨fun ha hb => Arrival.ranks_le (hdelete ha) (hinsert hb) (by decide),
    fun ha hb => Arrival.ranks_le (hdelete ha) (hcopy hb) (by decide)⟩,
    fun ha hb => Arrival.ranks_le (hinsert ha) (hcopy hb) (by decide)⟩

private theorem key_leave_le_ceiling (cell : Cell) (next : Kind) (trail : Path) :
    (leave prices cell next).key ≤ Path.key ceiling trail := by
  rcases Nat.lt_or_ge (leave prices cell next).cost ceiling with hlt | hge
  · exact Prod.Lex.toLex_le_toLex.2 (.inl hlt)
  · rw [Arrival.key, trail_leave_eq_nil prices hge]
    exact (Path.key_mono (cost_leave_le_ceiling prices cell next) []).trans
      (Path.key_nil_le ceiling trail)

private theorem key_leave_inner_le {left above diagonal : Option (UInt8 × Cell)} {next : Kind}
    {way : Arrival} (h : way ∈ waysOut prices left above diagonal next) :
    (leave prices ((lattice prices).inner left above diagonal) next).key ≤ way.key := by
  by_cases hc : way.cost < ceiling
  · have hm : way ∈ (waysOut prices left above diagonal next).filter (·.cost < ceiling) :=
      List.mem_filter.2 ⟨h, decide_eq_true hc⟩
    obtain ⟨best, hbest⟩ := Option.isSome_iff_exists.1
      (Arrival.isSome_cheapest? (List.ne_nil_of_mem hm))
    have hleave : leave prices ((lattice prices).inner left above diagonal) next = best := by
      change (Arrival.cheapest? ((waysOut prices left above diagonal next).filter
        (·.cost < ceiling))).getD nowhere = best
      rw [hbest, Option.getD_some]
    rw [hleave]
    exact Arrival.key_le_of_cheapest? (sorted_waysOut prices left above diagonal next) hbest hm
  · exact (key_leave_le_ceiling prices _ next _).trans (Path.key_mono (Nat.le_of_not_lt hc) _)

private theorem key_after_le (make : UInt8 → Step) {byte : UInt8} {cell : Cell} {rest : Path}
    (next : Kind) (hkey : (leave prices cell (make byte).kind).key ≤
      Path.key (price prices rest (make byte).kind) rest) :
    (after prices (make byte).kind next
      (extend prices make (make byte).kind (some (byte, cell)))).key ≤
        Path.key (price prices (make byte :: rest) next) (make byte :: rest) :=
  (Path.key_mono (Nat.min_le_right _ _) _).trans (Path.key_cons_le hkey _ rfl)

private theorem key_leave_le {trail : Path} {orig target : Bytes} (h : trail.Joins orig target)
    (next : Kind) :
    (leave prices ((lattice prices).cell orig target) next).key ≤
      Path.key (price prices trail next) trail := by
  induction trail generalizing orig target next with
  | nil =>
    obtain ⟨rfl, rfl⟩ := h
    rw [show Path.left [] = [] from rfl, show Path.right [] = [] from rfl, Lattice.cell]
    exact le_refl _
  | cons step rest ih =>
    obtain ⟨rfl, rfl⟩ := h
    have ih := ih ⟨rfl, rfl⟩ step.kind
    cases step with
    | delete byte =>
      obtain ⟨above, diagonal, hc⟩ :=
        (lattice prices).cell_of_left byte (Path.left rest) (Path.right rest)
      rw [Path.left, Path.right, hc]
      refine (key_leave_inner_le prices (.head _)).trans ?_
      exact key_after_le prices .delete next ih
    | insert byte =>
      obtain ⟨left, diagonal, hc⟩ :=
        (lattice prices).cell_of_above byte (Path.left rest) (Path.right rest)
      rw [Path.left, Path.right, hc]
      refine (key_leave_inner_le prices (.tail _ (.head _))).trans ?_
      exact key_after_le prices .insert next ih
    | copy byte =>
      obtain ⟨left, above, hc⟩ :=
        (lattice prices).cell_of_diagonal byte (Path.left rest) (Path.right rest)
      rw [Path.left, Path.right, hc]
      refine (key_leave_inner_le prices (.tail _ (.tail _ (.head _)))).trans ?_
      exact key_after_le prices .copy next ih

theorem foremost_path {orig target : Bytes} (h : (way prices orig target).cost < ceiling) :
    Path.Foremost prices.total orig target (path prices orig target) := by
  refine Path.foremost_of_key_le (joins_trail prices h) fun other hother => ?_
  have hkey := key_leave_le prices hother .stop
  rw [← Lattice.last_eq_cell] at hkey
  have htotal := total_path prices h
  rw [path] at htotal
  rw [htotal, ← price_reverse, List.reverse_reverse]
  exact hkey

end Priced

namespace Graph

/-- Of equally good paths both kinds of graph choose the same one, which comes before all others,
whatever they were used for before. -/
theorem script_foremost {capacity : Nat} (hword : capacity < UInt64.size)
    (before : Option (Bytes × Bytes)) {orig target : Bytes}
    (hfits : Aligner.cells orig target ≤ capacity) :
    (orig.length + target.length < 2 ^ 32 - 1 → ∃ graph ops,
      compute ⟨⟨.fewest, capacity⟩, before⟩ orig target = (.ok (), graph) ∧
      graph.script = .ok ops ∧ Path.Foremost List.length orig target (ops.steps orig)) ∧
    ∀ prices : PriceTable, ∃ graph cost,
      compute ⟨⟨.cheapest prices, capacity⟩, before⟩ orig target = (.ok (), graph) ∧
      graph.cost = .ok cost ∧ (cost < 2 ^ 32 - 1 → ∃ ops, graph.script = .ok ops ∧
        Path.Foremost prices.total orig target (ops.steps orig)) := by
  have hcells : Aligner.cells orig target ≤ min capacity Aligner.maxCells :=
    Nat.le_min.2 ⟨hfits, Nat.le_sub_one_of_lt (Nat.lt_of_le_of_lt hfits hword)⟩
  refine ⟨fun hshort => ?_, fun prices => ?_⟩
  · have hforemost := Nearest.foremost_trail hshort
    have hsteps := Path.steps_scriptBack (Nearest.trail orig target)
    rw [hforemost.joins.left_eq] at hsteps
    refine ⟨_, _, compute_of_fits hcells, rfl, ?_⟩
    rw [← hsteps] at hforemost
    exact hforemost
  · refine ⟨_, _, compute_of_fits hcells, rfl, fun hlt => ⟨_, rfl, ?_⟩⟩
    rw [Priced.steps_script prices hlt]
    exact Priced.foremost_path prices hlt

/-- Strings with two shortest paths, of which the one that deletes last is read from its end. -/
theorem script_foremost_tied :
    (∃ graph ops, compute ⟨⟨.fewest, 9⟩, some ([7], [8])⟩ [1, 2] [2, 1] = (.ok (), graph) ∧
      graph.script = .ok ops ∧ Path.Foremost List.length [1, 2] [2, 1] (ops.steps [1, 2])) ∧
    ∃ graph ops,
      compute ⟨⟨.cheapest .encoding, 9⟩, some ([7], [8])⟩ [1, 2] [2, 1] = (.ok (), graph) ∧
      graph.cost = .ok 6 ∧ graph.script = .ok ops ∧
      Path.Foremost (PriceTable.total .encoding) [1, 2] [2, 1] (ops.steps [1, 2]) := by
  obtain ⟨hfewest, hpriced⟩ :=
    script_foremost (by decide : 9 < UInt64.size) (some ([7], [8]))
      (by decide : Aligner.cells [1, 2] [2, 1] ≤ 9)
  obtain ⟨graph, cost, hgraph, hcost, hbest⟩ := hpriced .encoding
  have hsix : (compute ⟨⟨.cheapest .encoding, 9⟩, some ([7], [8])⟩ [1, 2] [2, 1]).2.cost =
    .ok 6 := rfl
  rw [hgraph, hcost] at hsix
  cases hsix
  obtain ⟨ops, hops, hforemost⟩ := hbest (by decide)
  exact ⟨hfewest (by decide), graph, ops, hgraph, hcost, hops, hforemost⟩

end Graph

end BytePatch
