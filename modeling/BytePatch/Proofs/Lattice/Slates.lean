import BytePatch.Lattice.Slate
import BytePatch.Proofs.Lattice.Cell

/-! What stands on a slate once a pair has been computed on it: every cell of that pair has been
written over, from cells that had been written over before it, so nothing that stood there earlier
is left to be read. -/
namespace BytePatch

variable {Cell Mark : Type}

/-- A step leads to a column and a row from another column and row. -/
inductive Leads (orig target : Array UInt8) : Nat → Nat → Step → Nat → Nat → Prop
  | delete {x y} : Leads orig target x y (.delete (byteAt orig (x + 1))) (x + 1) y
  | insert {x y} : Leads orig target x y (.insert (byteAt target (y + 1))) x (y + 1)
  | copy {x y} : byteAt orig (x + 1) = byteAt target (y + 1) →
      Leads orig target x y (.copy (byteAt orig (x + 1))) (x + 1) (y + 1)

namespace Leads
variable {orig target : Array UInt8} {x y x' y' : Nat} {step : Step}

theorem le_left (h : Leads orig target x' y' step x y) : x' ≤ x := by
  cases h <;> omega

theorem le_right (h : Leads orig target x' y' step x y) : y' ≤ y := by
  cases h <;> omega

end Leads

namespace Lattice
variable (lattice : Lattice Cell) {orig target : Bytes} {x y : Nat}

/-- The cell in a column of a row. -/
def cellAt (orig target : Bytes) (x y : Nat) : Cell :=
  lattice.cell (orig.take x).reverse (target.take y).reverse

theorem cellAt_last (orig target : Bytes) :
    lattice.cellAt orig target orig.length target.length = lattice.last orig target := by
  rw [last_eq_cell, cellAt, List.take_length, List.take_length]

theorem cellAt_zero (orig target : Bytes) : lattice.cellAt orig target 0 0 = lattice.origin := by
  rw [cellAt, List.take_zero, List.take_zero, List.reverse_nil, cell]

private theorem reverse_take_succ {bytes : Bytes} {i : Nat} (h : i < bytes.length) :
    (bytes.take (i + 1)).reverse = byteAt bytes.toArray (i + 1) :: (bytes.take i).reverse := by
  rw [List.take_add_one, List.getElem?_eq_getElem h]
  simp [byteAt, h]

/-- A cell is made from the cells that a step leads from. -/
theorem cellAt_eq (hx : x ≤ orig.length) (hy : y ≤ target.length) (hxy : x ≠ 0 ∨ y ≠ 0) :
    lattice.cellAt orig target x y = lattice.inner
      (if 0 < x then some (byteAt orig.toArray x, lattice.cellAt orig target (x - 1) y) else none)
      (if 0 < y then some (byteAt target.toArray y, lattice.cellAt orig target x (y - 1)) else none)
      (if 0 < x ∧ 0 < y ∧ byteAt orig.toArray x = byteAt target.toArray y then
        some (byteAt orig.toArray x, lattice.cellAt orig target (x - 1) (y - 1)) else none) := by
  cases x with
  | zero =>
    cases y with
    | zero => simp at hxy
    | succ y => simp [cellAt, reverse_take_succ hy, cell]
  | succ x =>
    cases y with
    | zero => simp [cellAt, reverse_take_succ hx, cell]
    | succ y => simp [cellAt, reverse_take_succ hx, reverse_take_succ hy, cell]

end Lattice

/-- What a rule writes shows the cells of a lattice: it does at the origin, and wherever it does at
the positions that a cell is entered from. -/
structure Rule.Follows (rule : Rule Mark) (lattice : Lattice Cell)
    (Shows : Nat → Cell → Mark → Prop) : Prop where
  origin : Shows 0 lattice.origin rule.origin
  inner {pos : Nat} {left above diagonal : Option (UInt8 × Cell)}
    {left' above' diagonal' : Option (Nat × Mark)} (hpos : pos ≠ 0)
    (hleft : Option.Rel (fun seen entry => Shows seen.1 entry.2 seen.2) left' left)
    (habove : Option.Rel (fun seen entry => Shows seen.1 entry.2 seen.2) above' above)
    (hdiagonal : Option.Rel (fun seen entry => Shows seen.1 entry.2 seen.2) diagonal' diagonal) :
    Shows pos (lattice.inner left above diagonal) (rule.enter left' above' diagonal')

namespace Slate
variable {orig target : Bytes} {x y : Nat}

private theorem place_inj {width x y x' y' : Nat} (hx : x < width) (hx' : x' < width)
    (h : x + y * width = x' + y' * width) : x = x' ∧ y = y' := by
  have hmod := congrArg (· % width) h
  have hdiv := congrArg (· / width) h
  have hw : 0 < width := Nat.lt_of_le_of_lt (Nat.zero_le x) hx
  simp only [Nat.add_mul_mod_self_right, Nat.mod_eq_of_lt hx, Nat.mod_eq_of_lt hx'] at hmod
  simp only [Nat.add_mul_div_right _ _ hw, Nat.div_eq_of_lt hx, Nat.div_eq_of_lt hx',
    Nat.zero_add] at hdiv
  exact ⟨hmod, hdiv⟩

theorem place_eq_zero_iff {width x y : Nat} : x + y * (width + 1) = 0 ↔ x = 0 ∧ y = 0 := by
  rw [Nat.add_eq_zero_iff, Nat.mul_eq_zero]
  simp

theorem place_ne_zero {orig target : Array UInt8} {x y x' y' : Nat} {step : Step}
    (h : Leads orig target x' y' step x y) (width : Nat) : x + y * (width + 1) ≠ 0 := by
  intro hpos
  obtain ⟨rfl, rfl⟩ := place_eq_zero_iff.1 hpos
  cases h

/-- The cells before a position have been written. -/
def Filled (lattice : Lattice Cell) (Shows : Nat → Cell → Mark → Prop) [Inhabited Mark]
    (orig target : Bytes) (count : Nat) (cells : Array Mark) : Prop :=
  ∀ x y, x ≤ orig.length → y ≤ target.length → x + y * (orig.length + 1) < count →
    Shows (x + y * (orig.length + 1)) (lattice.cellAt orig target x y)
      cells[x + y * (orig.length + 1)]!

section
variable [Inhabited Mark] {rule : Rule Mark} {lattice : Lattice Cell}
  {Shows : Nat → Cell → Mark → Prop} {cells : Array Mark}

@[simp] theorem size_fillCell (rule : Rule Mark) (orig target : Array UInt8) (y x : Nat)
    (cells : Array Mark) : (fillCell rule orig target y x cells).size = cells.size := by
  simp [fillCell]

private theorem fillRow_succ (rule : Rule Mark) (orig target : Array UInt8) (y count : Nat)
    (cells : Array Mark) : fillRow rule orig target y (count + 1) cells =
      fillCell rule orig target y count (fillRow rule orig target y count cells) :=
  Nat.fold_succ ..

private theorem fillRows_succ (rule : Rule Mark) (orig target : Array UInt8) (count : Nat)
    (cells : Array Mark) : fillRows rule orig target (count + 1) cells =
      fillRow rule orig target count (orig.size + 1) (fillRows rule orig target count cells) :=
  Nat.fold_succ ..

@[simp] theorem size_fillRow (rule : Rule Mark) (orig target : Array UInt8) (y count : Nat)
    (cells : Array Mark) : (fillRow rule orig target y count cells).size = cells.size := by
  induction count with
  | zero => rfl
  | succ count ih => rw [fillRow_succ, size_fillCell, ih]

@[simp] theorem size_fillRows (rule : Rule Mark) (orig target : Array UInt8) (count : Nat)
    (cells : Array Mark) : (fillRows rule orig target count cells).size = cells.size := by
  induction count with
  | zero => rfl
  | succ count ih => rw [fillRows_succ, size_fillRow, ih]

private theorem getElem!_set! {cells : Array Mark} {i j : Nat} (hi : i < cells.size) (mark : Mark) :
    (cells.set! i mark)[j]! = if i = j then mark else cells[j]! := by
  rw [Array.set!_eq_setIfInBounds, getElem!_def, getElem!_def, Array.getElem?_setIfInBounds]
  by_cases h : i = j
  · subst h
    simp [hi]
  · simp [h]

private theorem place_left {width x y : Nat} (hx : 0 < x) : x + y * width - 1 = x - 1 + y * width := by
  omega

private theorem place_above (width x : Nat) {y : Nat} (hy : 0 < y) :
    x + y * width - width = x + (y - 1) * width := by
  obtain ⟨y, rfl⟩ := Nat.exists_eq_add_one_of_ne_zero (Nat.ne_of_gt hy)
  rw [Nat.add_one_mul, Nat.add_sub_cancel, ← Nat.add_assoc, Nat.add_sub_cancel]

private theorem place_diagonal (width : Nat) {x y : Nat} (hx : 0 < x) (hy : 0 < y) :
    x + y * width - (width + 1) = x - 1 + (y - 1) * width := by
  rw [← Nat.sub_sub, place_above width x hy, place_left hx]

private theorem filled_fillCell (hrule : rule.Follows lattice Shows) (hx : x ≤ orig.length)
    (hy : y ≤ target.length) (hroom : x + y * (orig.length + 1) < cells.size)
    (h : Filled lattice Shows orig target (x + y * (orig.length + 1)) cells) :
    Filled lattice Shows orig target (x + 1 + y * (orig.length + 1))
      (fillCell rule orig.toArray target.toArray y x cells) := by
  intro x' y' hx' hy' hlt
  simp only [fillCell, List.size_toArray]
  rw [getElem!_set! hroom]
  by_cases hsame : x + y * (orig.length + 1) = x' + y' * (orig.length + 1)
  · obtain ⟨rfl, rfl⟩ := place_inj (Nat.lt_succ_of_le hx) (Nat.lt_succ_of_le hx') hsame
    rw [if_pos rfl]
    by_cases hpos : x + y * (orig.length + 1) = 0
    · obtain ⟨rfl, rfl⟩ := place_eq_zero_iff.1 hpos
      rw [if_pos hpos, Lattice.cellAt_zero, hpos]
      exact hrule.origin
    · have hxy : x ≠ 0 ∨ y ≠ 0 := by
        have hne := mt place_eq_zero_iff.2 hpos
        omega
      rw [if_neg hpos, lattice.cellAt_eq hx hy hxy]
      -- Each cell it is entered from stands before it, so it has been written.
      refine hrule.inner hpos ?_ ?_ ?_
      · split
        · next hx0 =>
          rw [place_left hx0]
          exact .some (h _ _ (by omega) hy (by omega))
        · exact .none
      · split
        · next hy0 =>
          have habove := place_above (orig.length + 1) x hy0
          rw [habove]
          exact .some (h _ _ hx (by omega) (by omega))
        · exact .none
      · split
        · next hxy =>
          have hdiagonal := place_diagonal (orig.length + 1) hxy.1 hxy.2.1
          rw [hdiagonal]
          exact .some (h _ _ (by omega) (by omega) (by omega))
        · exact .none
  · rw [if_neg hsame]
    exact h x' y' hx' hy' (by omega)

private theorem filled_fillRow (hrule : rule.Follows lattice Shows) (hy : y ≤ target.length)
    (hroom : orig.length + y * (orig.length + 1) < cells.size)
    (h : Filled lattice Shows orig target (y * (orig.length + 1)) cells) {count : Nat}
    (hcount : count ≤ orig.length + 1) :
    Filled lattice Shows orig target (count + y * (orig.length + 1))
      (fillRow rule orig.toArray target.toArray y count cells) := by
  induction count with
  | zero => simpa [fillRow] using h
  | succ count ih =>
    rw [fillRow_succ]
    refine filled_fillCell hrule (by omega) hy ?_ (ih (by omega))
    rw [size_fillRow]
    omega

/-- Rows that have been filled show the lattice of the pair, whatever the cells held before. -/
theorem filled_fillRows (hrule : rule.Follows lattice Shows)
    (hroom : (orig.length + 1) * (target.length + 1) ≤ cells.size) {count : Nat}
    (hcount : count ≤ target.length + 1) :
    Filled lattice Shows orig target (count * (orig.length + 1))
      (fillRows rule orig.toArray target.toArray count cells) := by
  induction count with
  | zero =>
    intro x y _ _ hlt
    simp at hlt
  | succ count ih =>
    rw [fillRows_succ, List.size_toArray, Nat.add_one_mul, Nat.add_comm]
    refine filled_fillRow hrule (by omega) ?_ (ih (by omega)) (Nat.le_refl _)
    rw [size_fillRows]
    have hlast : (orig.length + 1) * (count + 1) ≤ (orig.length + 1) * (target.length + 1) :=
      Nat.mul_le_mul_left _ hcount
    rw [Nat.mul_add_one, Nat.mul_comm] at hlast
    omega

/-- The slate shows the lattice of a pair. -/
structure Holds (lattice : Lattice Cell) (Shows : Nat → Cell → Mark → Prop) (orig target : Bytes)
    (slate : Slate Mark) : Prop where
  orig_eq : slate.orig = orig.toArray
  target_eq : slate.target = target.toArray
  shows_cell {x y : Nat} : x ≤ orig.length → y ≤ target.length →
    Shows (x + y * slate.width) (lattice.cellAt orig target x y)
      slate.cells[x + y * slate.width]!

namespace Holds
variable {slate : Slate Mark}

theorem last_eq (h : slate.Holds lattice Shows orig target) :
    slate.last = orig.length + target.length * slate.width := by
  have hwidth : slate.width = orig.length + 1 := by rw [width, h.orig_eq, List.size_toArray]
  have hheight : slate.height = target.length + 1 := by rw [height, h.target_eq, List.size_toArray]
  rw [last, hheight, hwidth, Nat.mul_add_one, Nat.mul_comm]
  omega

theorem shows_last (h : slate.Holds lattice Shows orig target) :
    Shows slate.last (lattice.last orig target) slate.cells[slate.last]! := by
  rw [h.last_eq, ← lattice.cellAt_last]
  exact h.shows_cell (Nat.le_refl _) (Nat.le_refl _)

end Holds

/-- Whatever stood on a slate, it shows the lattice of the pair that was computed last. -/
theorem holds_compute (hrule : rule.Follows lattice Shows) {slate : Slate Mark}
    (hroom : (orig.length + 1) * (target.length + 1) ≤ slate.cells.size) :
    (slate.compute rule orig target).Holds lattice Shows orig target where
  orig_eq := rfl
  target_eq := rfl
  shows_cell {x y} hx hy := by
    refine filled_fillRows hrule hroom (Nat.le_refl _) x y hx hy ?_
    have hrow : (y + 1) * (orig.length + 1) ≤ (target.length + 1) * (orig.length + 1) :=
      Nat.mul_le_mul_right _ (Nat.succ_le_succ hy)
    rw [Nat.add_one_mul] at hrow
    omega

end

end Slate

end BytePatch
