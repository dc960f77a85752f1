import BytePatch.Lattice.Fill
import BytePatch.Lattice.Runs
/-!
A lattice in storage that is written over for pair after pair. The cell in column `x` of row `y`
stands at `x + y * width`, so one position belongs to different cells from one pair to the next, and
what earlier pairs have left behind stays wherever it is not written over.
-/
namespace BytePatch

/-- What is written into a cell, given what stands at the positions it is entered from. -/
structure Rule (Mark : Type) where
  origin : Mark
  enter : (left above diagonal : Option (Nat × Mark)) → Mark

/-- A byte of a string that has a zero put in front. -/
def byteAt (bytes : Array UInt8) : Nat → UInt8
  | 0 => 0
  | i + 1 => bytes[i]!

structure Slate (Mark : Type) where
  cells : Array Mark
  orig : Array UInt8
  target : Array UInt8
  /-- Whether a pair has ever been compared. -/
  computed : Bool

namespace Slate
variable {Mark : Type}

section
variable (slate : Slate Mark)

def width : Nat := slate.orig.size + 1

def height : Nat := slate.target.size + 1

/-- The position of the cell at the ends of both strings. -/
def last : Nat := slate.width * slate.height - 1

/-- The position that a step of a kind comes from. -/
def before (pos : Nat) : Kind → Nat
  | .delete => pos - 1
  | .insert => pos - slate.width
  | .copy => pos - (slate.width + 1)
  | .stop => pos

/-- Write down the step of a kind that leads to a position. -/
def record (pos : Nat) (kind : Kind) (runs : Runs) : Except Fault Runs :=
  match kind with
  | .delete => .ok (runs.step .delete (some (byteAt slate.orig (pos % slate.width))))
  | .insert => .ok (runs.step .insert (some (byteAt slate.target (pos / slate.width))))
  | .copy => runs.copyRun 1
  | .stop => .ok runs

theorem before_lt {pos : Nat} {kind : Kind} (hkind : kind ≠ .stop) (hpos : pos ≠ 0) :
    slate.before pos kind < pos := by
  cases kind with
  | stop => exact absurd rfl hkind
  | _ => simp only [before, width]; omega

theorem before_lt_of_pos {pos : Nat} {kind : Kind} (hkind : kind ≠ .stop)
    (hbefore : slate.before pos kind ≠ 0) : slate.before pos kind < pos := by
  refine slate.before_lt hkind ?_
  rintro rfl
  cases kind <;> simp [before] at hbefore

end

variable [Inhabited Mark]

def new (capacity : Nat) : Slate Mark := ⟨.replicate capacity default, #[], #[], false⟩

section
variable (rule : Rule Mark) (orig target : Array UInt8)

def fillCell (y x : Nat) (cells : Array Mark) : Array Mark :=
  let width := orig.size + 1
  let pos := x + y * width
  let seen (pos : Nat) : Nat × Mark := (pos, cells[pos]!)
  cells.set! pos <|
    if pos = 0 then rule.origin
    else rule.enter (if 0 < x then some (seen (pos - 1)) else none)
      (if 0 < y then some (seen (pos - width)) else none)
      (if 0 < x ∧ 0 < y ∧ byteAt orig x = byteAt target y then some (seen (pos - (width + 1)))
        else none)

/-- The first cells of a row, from left to right. -/
def fillRow (y count : Nat) (cells : Array Mark) : Array Mark :=
  count.fold (fun x _ cells => fillCell rule orig target y x cells) cells

/-- The first rows, from top to bottom. -/
def fillRows (count : Nat) (cells : Array Mark) : Array Mark :=
  count.fold (fun y _ cells => fillRow rule orig target y (orig.size + 1) cells) cells

end

/-- Write the lattice of a pair over whatever is there. -/
def compute (rule : Rule Mark) (orig target : Bytes) (slate : Slate Mark) : Slate Mark :=
  let orig := orig.toArray
  let target := target.toArray
  ⟨fillRows rule orig target (target.size + 1) slate.cells, orig, target, true⟩

end Slate

end BytePatch
