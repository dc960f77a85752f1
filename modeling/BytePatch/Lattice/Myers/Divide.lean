import BytePatch.Lattice.Stretch
import BytePatch.Lattice.Myers.Middle
/-!
A shortest path by division: what two strings begin or end with together is kept, and what is
left between is cut where a shortest edit of it has its middle.
-/
namespace BytePatch.Myers

def kept : Bytes → List Stretch
  | [] => []
  | bytes => [.keep bytes]

/-- Everything of the one string goes and everything of the other comes. -/
def replaced : Bytes → Bytes → List Stretch
  | [], [] => []
  | xs, [] => [.delete xs]
  | [], ys => [.insert ys]
  | xs, ys => [.delete xs, .insert ys]

/-- A cut that leaves both parts smaller than the whole. -/
structure Cut (xs ys : Bytes) where
  i : Nat
  j : Nat
  before : (xs.take i).length + (ys.take j).length < xs.length + ys.length
  behind : (xs.drop i).length + (ys.drop j).length < xs.length + ys.length

/-- Where to cut two strings that are both not empty. -/
def Cut.find? (xs ys : Bytes) : Option (Cut xs ys) :=
  if xs = [] ∨ ys = [] then none
  else match middle? xs.toArray ys.toArray with
    | none => none
    | some (i, j) =>
      if h : (xs.take i).length + (ys.take j).length < xs.length + ys.length ∧
          (xs.drop i).length + (ys.drop j).length < xs.length + ys.length then
        some ⟨i, j, h.1, h.2⟩
      else none

private theorem length_inside_le (orig target : Bytes) :
    let start := commonStart orig target
    let stop := commonEnd start.left start.right
    stop.left.length + stop.right.length ≤ orig.length + target.length := by
  intro start stop
  have h1 := congrArg List.length (commonStart_left orig target)
  have h2 := congrArg List.length (commonStart_right orig target)
  have h3 := congrArg List.length (commonEnd_left start.left start.right)
  have h4 := congrArg List.length (commonEnd_right start.left start.right)
  simp only [List.length_append] at h1 h2 h3 h4
  simp only [stop, start] at *
  omega

/-- Stretches from the starts of both strings to their ends. -/
def divide (orig target : Bytes) : List Stretch :=
  let start := commonStart orig target
  let stop := commonEnd start.left start.right
  have _inside := length_inside_le orig target
  let between := match Cut.find? stop.left stop.right with
    | none => replaced stop.left stop.right
    | some cut =>
      have := cut.before
      have := cut.behind
      divide (stop.left.take cut.i) (stop.right.take cut.j) ++
        divide (stop.left.drop cut.i) (stop.right.drop cut.j)
  kept start.common ++ between ++ kept stop.common
termination_by orig.length + target.length
decreasing_by all_goals simp only [stop, start] at *; omega

theorem joins_kept (bytes : Bytes) : Stretch.Joins (kept bytes) bytes bytes := by
  cases bytes <;> constructor <;> simp [kept, Stretch.leftBytes, Stretch.rightBytes]

theorem joins_replaced (xs ys : Bytes) : Stretch.Joins (replaced xs ys) xs ys := by
  cases xs <;> cases ys <;> constructor <;> simp [replaced, Stretch.leftBytes, Stretch.rightBytes]

theorem filled_kept (bytes : Bytes) : ∀ stretch ∈ kept bytes, stretch.bytes ≠ [] := by
  cases bytes <;> simp [kept, Stretch.bytes]

theorem filled_replaced (xs ys : Bytes) : ∀ stretch ∈ replaced xs ys, stretch.bytes ≠ [] := by
  cases xs <;> cases ys <;> simp [replaced, Stretch.bytes]

theorem joins_divide (orig target : Bytes) : Stretch.Joins (divide orig target) orig target := by
  fun_induction divide orig target with
  | case1 orig target start stop _ between before behind =>
    have hb : Stretch.Joins between stop.left stop.right := by
      simp only [between]
      split
      · exact joins_replaced _ _
      · next cut _ => simpa using (before cut).append (behind cut)
    have := (joins_kept start.common).append (hb.append (joins_kept stop.common))
    rwa [← List.append_assoc, commonEnd_left, commonEnd_right, commonStart_left,
      commonStart_right] at this

end BytePatch.Myers
