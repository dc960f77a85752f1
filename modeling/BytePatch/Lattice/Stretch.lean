import BytePatch.Lattice.Step
/-!
Paths across the lattice as stretches of steps of one kind, and the longest stretch two strings
begin or end with together.
-/
namespace BytePatch

inductive Stretch where
  | keep (bytes : Bytes)
  | delete (bytes : Bytes)
  | insert (bytes : Bytes)
deriving DecidableEq

namespace Stretch

def isDelete : Stretch → Bool
  | .delete _ => true
  | _ => false

def isInsert : Stretch → Bool
  | .insert _ => true
  | _ => false

def bytes : Stretch → Bytes
  | .keep bytes | .delete bytes | .insert bytes => bytes

/-- What a stretch reads of the left string. -/
def leftBytes : Stretch → Bytes
  | .keep bytes | .delete bytes => bytes
  | .insert _ => []

/-- What a stretch reads of the right string. -/
def rightBytes : Stretch → Bytes
  | .keep bytes | .insert bytes => bytes
  | .delete _ => []

/-- The stretch as it is met from the ends of both strings. -/
def turned : Stretch → Stretch
  | .keep bytes => .keep bytes.reverse
  | .delete bytes => .delete bytes.reverse
  | .insert bytes => .insert bytes.reverse

def steps : Stretch → Path
  | .keep bytes => bytes.map .copy
  | .delete bytes => bytes.map .delete
  | .insert bytes => bytes.map .insert

/-- The stretches in a row lead from the starts of both strings to their ends. -/
structure Joins (stretches : List Stretch) (orig target : Bytes) : Prop where
  left_eq : stretches.flatMap leftBytes = orig
  right_eq : stretches.flatMap rightBytes = target

theorem left_steps (stretch : Stretch) : Path.left stretch.steps = stretch.leftBytes := by
  cases stretch with
  | keep bytes => induction bytes <;> simp_all [steps, leftBytes, Path.left]
  | delete bytes => induction bytes <;> simp_all [steps, leftBytes, Path.left]
  | insert bytes => induction bytes <;> simp_all [steps, leftBytes, Path.left]

theorem right_steps (stretch : Stretch) : Path.right stretch.steps = stretch.rightBytes := by
  cases stretch with
  | keep bytes => induction bytes <;> simp_all [steps, rightBytes, Path.right]
  | delete bytes => induction bytes <;> simp_all [steps, rightBytes, Path.right]
  | insert bytes => induction bytes <;> simp_all [steps, rightBytes, Path.right]

theorem Joins.turned {stretches : List Stretch} {orig target : Bytes}
    (h : Joins stretches orig target) :
    Joins (stretches.reverse.map Stretch.turned) orig.reverse target.reverse := by
  obtain ⟨rfl, rfl⟩ := h
  constructor
  · induction stretches with
    | nil => rfl
    | cons stretch rest ih => cases stretch <;> simp_all [Stretch.turned, leftBytes]
  · induction stretches with
    | nil => rfl
    | cons stretch rest ih => cases stretch <;> simp_all [Stretch.turned, rightBytes]

theorem Joins.path {stretches : List Stretch} {orig target : Bytes}
    (h : Joins stretches orig target) : Path.Joins (stretches.flatMap steps) orig target := by
  obtain ⟨rfl, rfl⟩ := h
  induction stretches with
  | nil => exact ⟨rfl, rfl⟩
  | cons stretch stretches ih =>
    exact Path.Joins.append ⟨left_steps stretch, right_steps stretch⟩ ih

theorem Joins.append {xs ys : List Stretch} {orig target orig' target' : Bytes}
    (hx : Joins xs orig target) (hy : Joins ys orig' target') :
    Joins (xs ++ ys) (orig ++ orig') (target ++ target') :=
  ⟨by rw [List.flatMap_append, hx.left_eq, hy.left_eq],
    by rw [List.flatMap_append, hx.right_eq, hy.right_eq]⟩

end Stretch

/-- What two strings have in common at one end, and what else each of them has. -/
structure Shared where
  common : Bytes
  left : Bytes
  right : Bytes

/-- The longest common beginning of two strings. -/
def commonStart : Bytes → Bytes → Shared
  | x :: xs, y :: ys =>
    if x = y then
      let shared := commonStart xs ys
      { shared with common := x :: shared.common }
    else ⟨[], x :: xs, y :: ys⟩
  | xs, ys => ⟨[], xs, ys⟩

/-- The longest common end of two strings. -/
def commonEnd (xs ys : Bytes) : Shared :=
  let shared := commonStart xs.reverse ys.reverse
  ⟨shared.common.reverse, shared.left.reverse, shared.right.reverse⟩

theorem commonStart_left (xs ys : Bytes) :
    (commonStart xs ys).common ++ (commonStart xs ys).left = xs := by
  induction xs generalizing ys with
  | nil => simp [commonStart]
  | cons x xs ih =>
    cases ys with
    | nil => simp [commonStart]
    | cons y ys => simp only [commonStart]; split <;> simp [ih]

theorem commonStart_right (xs ys : Bytes) :
    (commonStart xs ys).common ++ (commonStart xs ys).right = ys := by
  induction xs generalizing ys with
  | nil => simp [commonStart]
  | cons x xs ih =>
    cases ys with
    | nil => simp [commonStart]
    | cons y ys => simp only [commonStart]; split <;> simp_all

theorem commonEnd_left (xs ys : Bytes) :
    (commonEnd xs ys).left ++ (commonEnd xs ys).common = xs := by
  simp only [commonEnd, ← List.reverse_append, commonStart_left, List.reverse_reverse]

theorem commonEnd_right (xs ys : Bytes) :
    (commonEnd xs ys).right ++ (commonEnd xs ys).common = ys := by
  simp only [commonEnd, ← List.reverse_append, commonStart_right, List.reverse_reverse]

end BytePatch
