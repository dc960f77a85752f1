import BytePatch.Lattice.Step
/-!
The lattice of two strings filled row by row, each cell from the cells to its left, above it and,
where the bytes agree, diagonally before it. Only the last two rows are ever held.
-/
namespace BytePatch

/-- How cells are made. `inner` is given each neighbour that a step leads from, together with
the byte of that step. -/
structure Lattice (Cell : Type) where
  origin : Cell
  inner : (left above diagonal : Option (UInt8 × Cell)) → Cell

namespace Lattice

variable {Cell : Type} (lattice : Lattice Cell)

/-- The cells from `cell` on along the top edge. -/
def firstRow (cell : Cell) : Bytes → List Cell
  | [] => [cell]
  | byte :: orig =>
    cell :: firstRow (lattice.inner (some (byte, cell)) none none) orig

/-- The cells from `cell` on in the row of byte `across`, with `corner` the cell above `cell`
and the row above it to the right. -/
def sweep (across : UInt8) (cell corner : Cell) : Bytes → List Cell → List Cell
  | byte :: orig, above :: row =>
    let diagonal := if byte = across then some (byte, corner) else none
    cell :: sweep across (lattice.inner (some (byte, cell)) (some (across, above)) diagonal)
      above orig row
  | _, _ => [cell]

def nextRow (orig : Bytes) (row : List Cell) (across : UInt8) : List Cell :=
  match row with
  | [] => []
  | corner :: row =>
    lattice.sweep across (lattice.inner none (some (across, corner)) none) corner orig row

/-- The cell at the ends of both strings. -/
def last (orig target : Bytes) : Cell :=
  (target.foldl (lattice.nextRow orig) (lattice.firstRow lattice.origin orig)).getLastD
    lattice.origin

/-- A relation between a cell and the two prefixes it stands at, each written backward, that
holds at the origin and is handed on by every step. -/
structure Invariant (R : Bytes → Bytes → Cell → Prop) : Prop where
  origin : R [] [] lattice.origin
  inner {orig target : Bytes} {left above diagonal : Option (UInt8 × Cell)}
    (any : left.isSome ∨ above.isSome) (edge : left = none → orig = [])
    (fromLeft : ∀ byte cell, left = some (byte, cell) →
      ∃ before, orig = byte :: before ∧ R before target cell)
    (fromAbove : ∀ byte cell, above = some (byte, cell) →
      ∃ before, target = byte :: before ∧ R orig before cell)
    (fromDiagonal : ∀ byte cell, diagonal = some (byte, cell) →
      ∃ before across, orig = byte :: before ∧ target = byte :: across ∧ R before across cell) :
    R orig target (lattice.inner left above diagonal)

/-- A row of cells, each related to the prefix of the left string it stands at. -/
private inductive Row (R : Bytes → Bytes → Cell → Prop) (target : Bytes) :
    Bytes → Bytes → List Cell → Prop
  | last {before cell} : R before target cell → Row R target before [] [cell]
  | cons {before byte orig cell row} : R before target cell →
      Row R target (byte :: before) orig row → Row R target before (byte :: orig) (cell :: row)

variable {lattice} {R : Bytes → Bytes → Cell → Prop}

private theorem Row.head {target before orig : Bytes} {cell : Cell} {row : List Cell}
    (h : Row R target before orig (cell :: row)) : R before target cell := by
  cases h <;> assumption

private theorem row_firstRow (inv : lattice.Invariant R) (orig before : Bytes) (cell : Cell)
    (h : R before [] cell) : Row R [] before orig (lattice.firstRow cell orig) := by
  induction orig generalizing before cell with
  | nil => exact .last h
  | cons byte orig ih =>
    refine .cons h (ih _ _ (inv.inner (.inl rfl) nofun ?_ ?_ ?_))
    · rintro _ _ ⟨⟩; exact ⟨before, rfl, h⟩
    · rintro _ _ ⟨⟩
    · rintro _ _ ⟨⟩

private theorem row_sweep (inv : lattice.Invariant R) (across : UInt8) (target : Bytes)
    (orig before : Bytes) (cell corner : Cell) (row : List Cell)
    (hcell : R before (across :: target) cell) (hrow : Row R target before orig (corner :: row)) :
    Row R (across :: target) before orig (lattice.sweep across cell corner orig row) := by
  induction orig generalizing before cell corner row with
  | nil => exact .last hcell
  | cons byte orig ih =>
    cases hrow with
    | cons hcorner hrest =>
      cases row with
      | nil => cases hrest
      | cons above row =>
        refine .cons hcell (ih _ _ _ _ (inv.inner (.inl rfl) nofun ?_ ?_ ?_) hrest)
        · rintro _ _ ⟨⟩; exact ⟨before, rfl, hcell⟩
        · rintro _ _ ⟨⟩; exact ⟨target, rfl, hrest.head⟩
        · intro b c h
          split at h
          · next he => cases h; exact ⟨before, target, rfl, by rw [he], hcorner⟩
          · cases h

private theorem row_nextRow (inv : lattice.Invariant R) (across : UInt8) (target orig : Bytes)
    (row : List Cell) (hrow : Row R target [] orig row) :
    Row R (across :: target) [] orig (lattice.nextRow orig row across) := by
  cases row with
  | nil => cases hrow
  | cons corner row =>
    refine row_sweep inv across target orig [] _ corner row ?_ hrow
    refine inv.inner (.inr rfl) (fun _ => rfl) ?_ ?_ ?_
    · rintro _ _ ⟨⟩
    · rintro _ _ ⟨⟩; exact ⟨target, rfl, hrow.head⟩
    · rintro _ _ ⟨⟩

private theorem row_last {target before orig : Bytes} {row : List Cell} (fallback : Cell)
    (h : Row R target before orig row) :
    R (orig.reverse ++ before) target (row.getLastD fallback) := by
  induction h generalizing fallback with
  | last h => exact h
  | @cons before byte orig cell row _ _ ih =>
    rw [List.getLastD_cons]
    simpa using ih cell

/-- What every step hands on holds at the last cell. -/
theorem Invariant.last (inv : lattice.Invariant R) (orig target : Bytes) :
    R orig.reverse target.reverse (lattice.last orig target) := by
  have key : ∀ (target before : Bytes) (row : List Cell), Row R before [] orig row →
      Row R (target.reverse ++ before) [] orig (target.foldl (lattice.nextRow orig) row) := by
    intro target
    induction target with
    | nil => exact fun _ _ h => h
    | cons across target ih =>
      intro before row h
      simpa using ih _ _ (row_nextRow inv across before orig row h)
  have hrow := key target [] _ (row_firstRow inv orig [] lattice.origin inv.origin)
  simpa [Lattice.last] using row_last lattice.origin hrow

end Lattice

end BytePatch
