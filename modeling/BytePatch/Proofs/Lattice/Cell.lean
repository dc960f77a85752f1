import BytePatch.Lattice.Fill

/-! The cells of a lattice by recursion on the two prefixes they stand at. Filling row by row comes
to the same cells, so what is proved of a cell from its neighbours holds of the last one. -/
namespace BytePatch.Lattice

variable {Cell : Type} (lattice : Lattice Cell)

/-- The cell at the ends of two prefixes, each written backward. -/
def cell : Bytes → Bytes → Cell
  | [], [] => lattice.origin
  | x :: orig, [] => lattice.inner (some (x, cell orig [])) none none
  | [], y :: target => lattice.inner none (some (y, cell [] target)) none
  | x :: orig, y :: target =>
    lattice.inner (some (x, cell orig (y :: target))) (some (y, cell (x :: orig) target))
      (if x = y then some (x, cell orig target) else none)
termination_by orig target => orig.length + target.length

theorem cell_of_left (x : UInt8) (orig target : Bytes) : ∃ above diagonal,
    lattice.cell (x :: orig) target =
      lattice.inner (some (x, lattice.cell orig target)) above diagonal := by
  cases target with
  | nil => exact ⟨_, _, by rw [cell]⟩
  | cons y target => exact ⟨_, _, by rw [cell]⟩

theorem cell_of_above (y : UInt8) (orig target : Bytes) : ∃ left diagonal,
    lattice.cell orig (y :: target) =
      lattice.inner left (some (y, lattice.cell orig target)) diagonal := by
  cases orig with
  | nil => exact ⟨_, _, by rw [cell]⟩
  | cons x orig => exact ⟨_, _, by rw [cell]⟩

theorem cell_of_diagonal (x : UInt8) (orig target : Bytes) : ∃ left above,
    lattice.cell (x :: orig) (x :: target) =
      lattice.inner left above (some (x, lattice.cell orig target)) :=
  ⟨_, _, by rw [cell, if_pos rfl]⟩

/-- The cells at one prefix of the right string, from a prefix of the left string on. -/
private def row (target : Bytes) : Bytes → Bytes → List Cell
  | before, [] => [lattice.cell before target]
  | before, byte :: orig => lattice.cell before target :: row target (byte :: before) orig

private theorem row_eq (target before orig : Bytes) :
    ∃ rest, row lattice target before orig = lattice.cell before target :: rest := by
  cases orig with
  | nil => exact ⟨[], rfl⟩
  | cons byte orig => exact ⟨_, rfl⟩

private theorem firstRow_eq (orig before : Bytes) :
    lattice.firstRow (lattice.cell before []) orig = row lattice [] before orig := by
  induction orig generalizing before with
  | nil => rfl
  | cons byte orig ih =>
    rw [firstRow, row, ← ih]
    rw [cell]

private theorem sweep_eq (across : UInt8) (target orig before : Bytes) {rest : List Cell}
    (h : row lattice target before orig = lattice.cell before target :: rest) :
    lattice.sweep across (lattice.cell before (across :: target)) (lattice.cell before target)
      orig rest = row lattice (across :: target) before orig := by
  induction orig generalizing before rest with
  | nil =>
    cases h
    rfl
  | cons byte orig ih =>
    obtain ⟨rest', hr⟩ := row_eq lattice target (byte :: before) orig
    obtain rfl : rest = lattice.cell (byte :: before) target :: rest' := by
      rw [row, List.cons.injEq] at h
      rw [← h.2, hr]
    rw [sweep, row, ← ih (byte :: before) hr]
    rw [cell]

private theorem nextRow_eq (across : UInt8) (target orig : Bytes) :
    lattice.nextRow orig (row lattice target [] orig) across =
      row lattice (across :: target) [] orig := by
  obtain ⟨rest, hr⟩ := row_eq lattice target [] orig
  rw [hr, ← sweep_eq lattice across target orig [] hr, nextRow]
  rw [cell]

private theorem getLastD_row (target before orig : Bytes) (fallback : Cell) :
    (row lattice target before orig).getLastD fallback =
      lattice.cell (orig.reverse ++ before) target := by
  induction orig generalizing before fallback with
  | nil => rfl
  | cons byte orig ih =>
    rw [row, List.getLastD_cons, ih]
    simp

theorem last_eq_cell (orig target : Bytes) :
    lattice.last orig target = lattice.cell orig.reverse target.reverse := by
  have key : ∀ target before : Bytes,
      target.foldl (lattice.nextRow orig) (row lattice before [] orig) =
        row lattice (target.reverse ++ before) [] orig := by
    intro target
    induction target with
    | nil => exact fun _ => rfl
    | cons across target ih =>
      intro before
      rw [List.foldl_cons, nextRow_eq, ih]
      simp
  have hfirst := firstRow_eq lattice orig []
  rw [cell] at hfirst
  rw [last, hfirst, key, getLastD_row]
  simp

end BytePatch.Lattice
