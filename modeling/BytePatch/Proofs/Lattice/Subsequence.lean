import BytePatch.Proofs.Lattice.Dominance
import BytePatch.Proofs.Lattice.Flat
import BytePatch.Proofs.Lattice.Ties

/-! What a shortest path keeps. The bytes that a path copies are a subsequence of both strings,
every common subsequence is copied by some path, and the more a path copies the fewer steps it
takes: a script found with the fewest steps copies a longest common subsequence, and no script that
turns the one string into the other gets by with less. -/
namespace BytePatch

/-- A subsequence of both strings that no other is longer than. -/
structure LongestCommon (common orig target : Bytes) : Prop where
  left : common.Sublist orig
  right : common.Sublist target
  longest : ∀ other : Bytes, other.Sublist orig → other.Sublist target →
    other.length ≤ common.length

namespace Path

/-- The bytes a path keeps. -/
def copied : Path → Bytes
  | [] => []
  | .copy byte :: steps => byte :: copied steps
  | .delete _ :: steps | .insert _ :: steps => copied steps

theorem copied_sublist_left (path : Path) : path.copied.Sublist path.left := by
  induction path with
  | nil => exact .slnil
  | cons step path ih =>
    cases step with
    | delete byte => exact .cons byte ih
    | insert byte => exact ih
    | copy byte => exact .cons_cons byte ih

theorem copied_sublist_right (path : Path) : path.copied.Sublist path.right := by
  induction path with
  | nil => exact .slnil
  | cons step path ih =>
    cases step with
    | delete byte => exact ih
    | insert byte => exact .cons byte ih
    | copy byte => exact .cons_cons byte ih

/-- A copy takes a byte of each string, every other step a byte of one of them. -/
theorem length_add_copied (path : Path) :
    path.length + path.copied.length = path.left.length + path.right.length := by
  induction path with
  | nil => rfl
  | cons step path ih =>
    cases step <;> simp only [copied, left, right, List.length_cons] <;> omega

/-- Any bytes that both strings have in this order are copied by some path. -/
theorem exists_copied {common orig target : Bytes} (ho : common.Sublist orig)
    (ht : common.Sublist target) :
    ∃ path : Path, path.Joins orig target ∧ path.copied = common := by
  induction ho generalizing target with
  | slnil =>
    induction target with
    | nil => exact ⟨[], ⟨rfl, rfl⟩, rfl⟩
    | cons byte target ih =>
      obtain ⟨path, ⟨hleft, hright⟩, hcopied⟩ := ih (List.nil_sublist _)
      exact ⟨.insert byte :: path, ⟨hleft, congrArg (byte :: ·) hright⟩, hcopied⟩
  | cons byte _ ih =>
    obtain ⟨path, ⟨hleft, hright⟩, hcopied⟩ := ih ht
    exact ⟨.delete byte :: path, ⟨congrArg (byte :: ·) hleft, hright⟩, hcopied⟩
  | cons_cons byte _ ih =>
    -- The right string has other bytes before this one, which are inserted.
    induction target with
    | nil => cases ht
    | cons other target iht =>
      cases ht with
      | cons _ ht =>
        obtain ⟨path, ⟨hleft, hright⟩, hcopied⟩ := iht ht
        exact ⟨.insert other :: path, ⟨hleft, congrArg (other :: ·) hright⟩, hcopied⟩
      | cons_cons _ ht =>
        obtain ⟨path, ⟨hleft, hright⟩, hcopied⟩ := ih ht
        exact ⟨.copy byte :: path, ⟨congrArg (byte :: ·) hleft, congrArg (byte :: ·) hright⟩,
          congrArg (byte :: ·) hcopied⟩

/-- A shortest path keeps as much as can be kept. -/
theorem longestCommon_copied {path : Path} {orig target : Bytes} (h : path.Joins orig target)
    (hleast : ∀ other : Path, other.Joins orig target → path.length ≤ other.length) :
    LongestCommon path.copied orig target := by
  refine ⟨h.left_eq ▸ path.copied_sublist_left, h.right_eq ▸ path.copied_sublist_right,
    fun common ho ht => ?_⟩
  obtain ⟨other, hother, rfl⟩ := exists_copied ho ht
  have hle := hleast other hother
  have hlength := path.length_add_copied
  have hlength' := other.length_add_copied
  rw [h.left_eq, h.right_eq] at hlength
  rw [hother.left_eq, hother.right_eq] at hlength'
  omega

end Path

namespace Script

private theorem length_steps_op_le (op : Op) (orig : Bytes) : (op.steps orig).length ≤ op.run := by
  cases op <;> simp [Op.steps, Op.run]

theorem length_steps_le (ops : Script) (orig : Bytes) : (ops.steps orig).length ≤ ops.totalRun := by
  induction ops generalizing orig with
  | nil => exact Nat.le_refl _
  | cons op ops ih =>
    rw [steps, List.length_append, totalRun, sumOf_cons]
    exact Nat.add_le_add (length_steps_op_le op orig) (ih _)

end Script

namespace Graph

/-- The runs of a script with the fewest steps come to the bytes of both strings less those of a
longest common subsequence, and those of no script that makes the one string of the other come to
less. The strings have to be short enough for their steps to be counted. -/
theorem script_minimal (capacity : Nat) (before : Option (Bytes × Bytes)) {orig target : Bytes}
    (hlength : orig.length + target.length < 2 ^ 32 - 1)
    (hfits : Aligner.cells orig target ≤ capacity) :
    ∃ graph ops common,
      compute ⟨⟨.fewest, capacity⟩, before⟩ orig target = (.ok (), graph) ∧
      graph.script = .ok ops ∧ LongestCommon common orig target ∧
      ops.totalRun + common.length = orig.length + target.length ∧
      ∀ other : Script, (∀ op ∈ other, op.Valid) → other.replay orig = .ok target →
        other.reach = orig.length → ops.totalRun ≤ other.totalRun := by
  have hcells := Nat.le_min.2 ⟨hfits, Aligner.cells_le_maxCells_of_counted hlength⟩
  have hforemost := Nearest.foremost_trail hlength
  have hrun := Path.totalRun_scriptBack (Nearest.trail orig target)
  rw [← List.length_reverse] at hrun
  refine ⟨_, _, _, compute_of_fits hcells, rfl,
    Path.longestCommon_copied hforemost.joins hforemost.least, ?_, ?_⟩
  · have hpath := Path.length_add_copied (Nearest.trail orig target).reverse
    rw [hforemost.joins.left_eq, hforemost.joins.right_eq, ← hrun] at hpath
    exact hpath
  · intro other _ hreplay hreach
    have hjoins := Script.joins_steps_of_replay hreplay hreach
    calc (Nearest.trail orig target).scriptBack.totalRun
        = (Nearest.trail orig target).reverse.length := hrun
      _ ≤ (other.steps orig).length := hforemost.least _ hjoins
      _ ≤ other.totalRun := other.length_steps_le orig

/-- Strings with a single byte in common that stands at the end of the one and at the start of the
other. -/
theorem script_minimal_crossed : ∃ graph ops common,
    compute ⟨⟨.fewest, 12⟩, some ([7], [8])⟩ [1, 2] [2, 3, 3] = (.ok (), graph) ∧
    graph.script = .ok ops ∧ LongestCommon common [1, 2] [2, 3, 3] ∧
    ops.totalRun + common.length = 2 + 3 ∧
    ∀ other : Script, (∀ op ∈ other, op.Valid) → other.replay [1, 2] = .ok [2, 3, 3] →
      other.reach = 2 → ops.totalRun ≤ other.totalRun :=
  script_minimal 12 _ (by decide) (by decide)

end Graph

end BytePatch
