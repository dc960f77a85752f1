import Mathlib.Data.List.Chain
import BytePatch.Lattice.Stretch
import BytePatch.Proofs.Script.Edits

/-! Scripts and the single steps they take across the lattice of the string they are replayed on.
Grouping leaves the steps as they are, and leaves no two neighbours of one kind. -/
namespace BytePatch

/-- The steps of an op that finds the given bytes in front of it. What a delete remembers has no
part in them. -/
def Op.steps : Op → Bytes → Path
  | .copy run, orig => (orig.take run).map .copy
  | .skip run, orig => (orig.take run).map .delete
  | .delete bytes, orig => (orig.take bytes.length).map .delete
  | .insert bytes, _ => bytes.map .insert

theorem Op.kind_of_mem_steps {op : Op} {orig : Bytes} {step : Step} (h : step ∈ op.steps orig) :
    step.kind = op.kind := by
  cases op <;> obtain ⟨_, -, rfl⟩ := List.mem_map.1 h <;> rfl

namespace Script

/-- Neighbours are of different kinds. -/
def Alternates (ops : Script) : Prop := ops.IsChain fun a b => a.kind ≠ b.kind

/-- How many bytes of the original a script uses up. -/
def reach (ops : Script) : Nat := sumOf Op.reach ops

/-- The single steps of a script along a string. -/
def steps : Script → Bytes → Path
  | [], _ => []
  | op :: ops, orig => op.steps orig ++ steps ops (orig.drop op.reach)

section Grouped

private theorem alternates_cons {a b : Op} {ops : Script} (h : a.kind ≠ b.kind)
    (hs : Alternates (b :: ops)) : Alternates (a :: b :: ops) := List.isChain_cons_cons.2 ⟨h, hs⟩

theorem alternates_prepend (op : Op) {ops : Script} (h : ops.Alternates) :
    (ops.prepend op).Alternates := by
  cases ops with
  | nil => exact List.IsChain.singleton op
  | cons next rest =>
    cases hm : op.merge? next with
    | none =>
      rw [prepend, hm]
      refine alternates_cons (fun heq => ?_) h
      have hsome := (Op.merge?_isSome_iff op next).2 heq
      rw [hm] at hsome
      cases hsome
    | some both =>
      -- The joined op has the kind of both, so it differs from what follows as the second did.
      have hk : both.kind = next.kind := (Op.kind_of_merge? hm).trans
        ((Op.merge?_isSome_iff op next).1 (by rw [hm]; rfl))
      rw [prepend, hm]
      cases rest with
      | nil => exact List.IsChain.singleton both
      | cons third rest =>
        obtain ⟨hne, hrest⟩ := List.isChain_cons_cons.1 h
        exact alternates_cons (hk ▸ hne) hrest

theorem alternates_grouped (ops : Script) : Alternates (grouped ops) := by
  induction ops with
  | nil => exact .nil
  | cons op ops ih => exact alternates_prepend op ih

private theorem steps_merge {a b op : Op} (h : a.merge? b = some op) (orig : Bytes) :
    op.steps orig = a.steps orig ++ b.steps (orig.drop a.reach) ∧
      op.reach = a.reach + b.reach := by
  cases a <;> cases b <;> cases h <;> simp [Op.steps, Op.reach, List.take_add]

private theorem steps_prepend (op : Op) (ops : Script) (orig : Bytes) :
    (ops.prepend op).steps orig = steps (op :: ops) orig := by
  cases ops with
  | nil => rfl
  | cons next rest =>
    cases hm : op.merge? next with
    | none => simp [prepend, hm]
    | some both =>
      obtain ⟨hs, hr⟩ := steps_merge hm orig
      simp [prepend, hm, steps, hs, hr, List.drop_drop]

theorem steps_grouped (ops : Script) (orig : Bytes) :
    (grouped ops).steps orig = steps ops orig := by
  induction ops generalizing orig with
  | nil => rfl
  | cons op ops ih =>
    change steps (prepend op (grouped ops)) orig = _
    rw [steps_prepend, steps, steps, ih]

end Grouped

section Played

private theorem joins_op {op : Op} {orig out rest : Bytes} (h : op.play orig = .ok (out, rest)) :
    ∃ src, orig = src ++ rest ∧ src.length = op.reach ∧ rest = orig.drop op.reach ∧
      (op.steps orig).Joins src out := by
  have along : ∀ n, n ≤ orig.length →
      orig = orig.take n ++ orig.drop n ∧ (orig.take n).length = n :=
    fun n hn => ⟨(List.take_append_drop n orig).symm, by simp [hn]⟩
  have joins : ∀ stretch : Stretch, Path.Joins stretch.steps stretch.leftBytes stretch.rightBytes :=
    fun stretch => ⟨stretch.left_steps, stretch.right_steps⟩
  cases op with
  | copy run =>
    simp only [Op.play] at h
    split at h <;> cases h
    next hl => exact ⟨_, (along run hl).1, (along run hl).2, rfl, joins (.keep _)⟩
  | skip run =>
    simp only [Op.play, Op.play.passing] at h
    split at h <;> cases h
    next hl => exact ⟨_, (along run hl).1, (along run hl).2, rfl, joins (.delete _)⟩
  | delete bytes =>
    simp only [Op.play, Op.play.passing] at h
    split at h <;> cases h
    next hl => exact ⟨_, (along _ hl).1, (along _ hl).2, rfl, joins (.delete _)⟩
  | insert bytes =>
    cases h
    exact ⟨[], rfl, rfl, rfl, joins (.insert _)⟩

/-- A script that plays takes its steps from what it uses up to what it writes. -/
theorem joins_steps {ops : Script} {orig out rest : Bytes} (h : ops.play orig = .ok (out, rest)) :
    ∃ src, orig = src ++ rest ∧ src.length = ops.reach ∧ (ops.steps orig).Joins src out := by
  induction ops generalizing orig out rest with
  | nil => cases h; exact ⟨[], rfl, rfl, rfl, rfl⟩
  | cons op ops ih =>
    simp only [play] at h
    split at h
    · cases h
    next b mid ho =>
    split at h <;> cases h
    next dst hs =>
    obtain ⟨a, ha, hlen, hmid, hjoins⟩ := joins_op ho
    obtain ⟨src, hsrc, hreach, hrest⟩ := ih hs
    refine ⟨a ++ src, by rw [List.append_assoc, ← hsrc, ← ha], ?_, ?_⟩
    · simp only [List.length_append, reach, sumOf_cons] at hreach ⊢
      omega
    · rw [steps, ← hmid]
      exact hjoins.append hrest

end Played

theorem Edits.reach_eq {ops : Script} {src dst : Bytes} (h : Edits ops src dst) :
    ops.reach = src.length := by
  induction h with
  | nil => rfl
  | @cons op ops a b src dst ho _ ih =>
    have hop : op.reach = a.length := by
      cases op <;> obtain ⟨h1, h2⟩ := ho <;> subst h1 h2 <;> rfl
    simp only [reach, sumOf_cons, List.length_append] at ih ⊢
    omega

end Script

namespace Path

theorem alternates_scriptBack (trail : Path) : trail.scriptBack.Alternates := by
  rw [scriptBack_eq]
  exact Script.alternates_grouped _

private theorem steps_ops (path : Path) (rest : Bytes) :
    Script.steps (path.map Step.op) (path.left ++ rest) = path := by
  induction path with
  | nil => rfl
  | cons step path ih =>
    cases step <;> simpa [Script.steps, Step.op, Op.steps, Op.reach, left] using ih

/-- The script of a path takes just the steps of the path. -/
theorem steps_scriptBack (trail : Path) :
    trail.scriptBack.steps (left trail.reverse) = trail.reverse := by
  rw [scriptBack_eq, Script.steps_grouped]
  simpa using steps_ops trail.reverse []

end Path

end BytePatch
