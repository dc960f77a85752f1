import BytePatch.Script
/-!
Steps across the lattice of two byte strings: along the left one a byte is deleted, along the
right one a byte is inserted, and diagonally a byte that both have is copied. A list of steps
determines the two strings it crosses, so a path between two strings is a list of steps whose
`left` is the one and whose `right` is the other.
-/
namespace BytePatch

inductive Step where
  | delete (byte : UInt8)
  | insert (byte : UInt8)
  | copy (byte : UInt8)
deriving DecidableEq

namespace Step

def kind : Step → Kind
  | .delete _ => .delete
  | .insert _ => .insert
  | .copy _ => .copy

/-- The op of a single step. -/
def op : Step → Op
  | .delete byte => .delete [byte]
  | .insert byte => .insert [byte]
  | .copy _ => .copy 1

@[simp] theorem weight_op (step : Step) : step.op.weight = 1 := by cases step <;> rfl

end Step

abbrev Path := List Step

namespace Path

/-- The string that is read off the deletes and copies. -/
def left : Path → Bytes
  | [] => []
  | .delete byte :: steps | .copy byte :: steps => byte :: left steps
  | .insert _ :: steps => left steps

/-- The string that is read off the inserts and copies. -/
def right : Path → Bytes
  | [] => []
  | .insert byte :: steps | .copy byte :: steps => byte :: right steps
  | .delete _ :: steps => right steps

/-- The path leads from the start of both strings to their ends. -/
structure Joins (path : Path) (orig target : Bytes) : Prop where
  left_eq : path.left = orig
  right_eq : path.right = target

/-- The script of a path that is given end first, one op for each stretch of steps of a kind. -/
def scriptBack (trail : Path) : Script :=
  trail.foldl (fun ops step => ops.prepend step.op) []

theorem left_append (xs ys : Path) : left (xs ++ ys) = left xs ++ left ys := by
  fun_induction left xs <;> simp_all [left]

theorem right_append (xs ys : Path) : right (xs ++ ys) = right xs ++ right ys := by
  fun_induction right xs <;> simp_all [right]

theorem left_reverse (path : Path) : left path.reverse = (left path).reverse := by
  fun_induction left path <;> simp_all [left, left_append]

theorem right_reverse (path : Path) : right path.reverse = (right path).reverse := by
  fun_induction right path <;> simp_all [right, right_append]

theorem Joins.append {xs ys : Path} {orig target orig' target' : Bytes}
    (hx : xs.Joins orig target) (hy : ys.Joins orig' target') :
    Joins (xs ++ ys) (orig ++ orig') (target ++ target') :=
  ⟨by rw [left_append, hx.left_eq, hy.left_eq], by rw [right_append, hx.right_eq, hy.right_eq]⟩

theorem Joins.reverse {path : Path} {orig target : Bytes} (h : path.Joins orig target) :
    Joins path.reverse orig.reverse target.reverse :=
  ⟨by rw [left_reverse, h.left_eq], by rw [right_reverse, h.right_eq]⟩

theorem length_le (path : Path) : path.length ≤ path.left.length + path.right.length := by
  induction path with
  | nil => simp
  | cons step steps ih => cases step <;> simp only [left, right, List.length_cons] <;> omega

theorem scriptBack_eq (trail : Path) :
    scriptBack trail = Script.grouped (trail.reverse.map Step.op) := by
  simp [scriptBack, Script.grouped, List.foldl_map]

theorem weight_ops (path : Path) : Script.weight (path.map Step.op) = path.length := by
  induction path with
  | nil => rfl
  | cons step path ih => simp [ih, Nat.add_comm]

theorem weight_scriptBack_le (trail : Path) : (scriptBack trail).weight ≤ trail.length := by
  rw [scriptBack_eq]
  refine Nat.le_trans (Script.weight_grouped_le _) (Nat.le_of_eq ?_)
  rw [weight_ops, List.length_reverse]

end Path

end BytePatch
