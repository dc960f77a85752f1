import BytePatch.Proofs.Script.Regrouping

/-! What the ops of each kind in a script add up to. Neither cutting ops into pieces nor gathering
regions changes it; ops that are left out do. -/
namespace BytePatch

namespace Script

/-- The ops of one kind as one op, if there are any: their runs and, as far as all of them have any,
their bytes. -/
def total (kind : Kind) (ops : Script) : Script := grouped (ops.filter (·.kind = kind))

private theorem grouped_filter_prepend (sort : Kind → Bool) (op : Op) (xs ys : Script) :
    grouped ((prepend op xs).filter (sort ·.kind) ++ ys) =
      grouped ((op :: xs).filter (sort ·.kind) ++ ys) := by
  cases xs with
  | nil => rfl
  | cons next xs =>
    cases hm : op.merge? next with
    | none => rw [prepend, hm]
    | some both =>
      have hkind : op.kind = next.kind := (Op.merge?_isSome_iff op next).1 (by rw [hm]; rfl)
      have hboth : both.kind = next.kind := (Op.kind_of_merge? hm).trans hkind
      rw [prepend, hm]
      simp only [List.filter_cons, hboth, hkind]
      cases sort next.kind with
      | false => rfl
      | true => exact (grouped_merged hm _).symm

private theorem grouped_filter_grouped (sort : Kind → Bool) (xs ys : Script) :
    grouped ((grouped xs).filter (sort ·.kind) ++ ys) =
      grouped (xs.filter (sort ·.kind) ++ ys) := by
  induction xs with
  | nil => rfl
  | cons op xs ih =>
    rw [grouped_cons, grouped_filter_prepend, List.filter_cons, List.filter_cons]
    split
    · rw [List.cons_append, List.cons_append, grouped_cons, ih, grouped_cons]
    · exact ih

/-- What has been grouped before makes no difference. -/
theorem grouped_grouped_append (xs ys : Script) :
    grouped (grouped xs ++ ys) = grouped (xs ++ ys) := by
  simpa using grouped_filter_grouped (fun _ => true) xs ys

section Total
variable (kind : Kind)

private theorem grouped_filter_regroup (lead : Kind) (region ys : Script) :
    grouped ((Unchunk.regroup lead region).filter (·.kind = kind) ++ ys) =
      grouped (region.filter (·.kind = kind) ++ ys) := by
  rw [Unchunk.regroup, List.filter_append, List.append_assoc,
    grouped_filter_grouped (fun k => k = kind),
    grouped_append_congr _ (grouped_filter_grouped (fun k => k = kind) _ ys), List.filter_filter,
    List.filter_filter]
  by_cases hk : kind = lead
  · subst hk
    simp
  · have hlead : region.filter (fun op => op.kind = kind && op.kind = lead) = [] := by
      simp only [List.filter_eq_nil_iff, Bool.and_eq_true, decide_eq_true_eq]
      rintro op - ⟨rfl, hlead⟩
      exact hk hlead
    have hother : region.filter (fun op => op.kind = kind && op.kind ≠ lead) =
        region.filter (·.kind = kind) := by
      refine List.filter_congr fun op _ => ?_
      by_cases hop : op.kind = kind
      · simp [hop, hk]
      · simp [hop]
    rw [hlead, hother, List.nil_append]

theorem total_cut (size : Nat) (ops : Script) :
    total kind (Chunk.cut size ops) = total kind ops := by
  rw [total, Chunk.filter_cut, grouped_flatMap (Chunk.merges_pieces size), total]

theorem total_regrouped (ops : Script) : total kind ops.regrouped = total kind ops := by
  have hregions (regions : List Script) :
      total kind (regions.flatMap Unchunk.gathered) = total kind regions.flatten := by
    induction regions with
    | nil => rfl
    | cons region regions ih =>
      simp only [total, List.flatMap_cons, List.flatten_cons, List.filter_append] at ih ⊢
      cases region with
      | nil => exact ih
      | cons first region =>
        rw [Unchunk.gathered, grouped_filter_regroup, grouped_append_congr _ ih]
  rw [regrouped, hregions, regions, List.flatten_splitBy]

theorem total_append_congr {xs xs' ys ys' : Script} (hx : total kind xs = total kind xs')
    (hy : total kind ys = total kind ys') : total kind (xs ++ ys) = total kind (xs' ++ ys') := by
  have htotal (xs ys : Script) :
      total kind (xs ++ ys) = grouped (total kind xs ++ ys.filter (·.kind = kind)) := by
    rw [total, total, List.filter_append, grouped_grouped_append]
  rw [htotal, htotal, hx]
  exact grouped_append_congr _ hy

theorem totalRun_total (ops : Script) :
    (total kind ops).totalRun = totalRun (ops.filter (·.kind = kind)) := totalRun_grouped _

end Total

private theorem totalRun_eq (ops : Script) : ops.totalRun =
    (total .delete ops).totalRun + (total .insert ops).totalRun + (total .copy ops).totalRun := by
  simp only [totalRun_total]
  induction ops with
  | nil => rfl
  | cons op ops ih =>
    simp only [totalRun, sumOf_cons, List.filter_cons] at ih ⊢
    cases hkind : op.kind with
    | stop => exact absurd hkind op.kind_ne_stop
    | _ =>
      simp only [decide_true, decide_false, reduceCtorEq, if_true, Bool.false_eq_true, if_false,
        sumOf_cons]
      omega

private theorem totalRun_perm {xs ys : Script} (h : xs.Perm ys) : xs.totalRun = ys.totalRun := by
  induction h with
  | nil => rfl
  | cons op _ ih => exact congrArg (op.run + ·) ih
  | swap a b ops => exact Nat.add_left_comm ..
  | trans _ _ ih ih' => exact ih.trans ih'

/-- Ops that are left out are missed, unless they have no run. -/
theorem forall_total_eq_iff {kept lost ops : Script} (hsub : kept.Sublist ops)
    (hperm : (kept ++ lost).Perm ops) (hpos : ∀ op ∈ ops, 0 < op.run) :
    (∀ kind, total kind kept = total kind ops) ↔ lost = [] := by
  constructor
  · intro htotal
    have hsame : kept.totalRun = ops.totalRun := by
      rw [totalRun_eq kept, totalRun_eq ops, htotal, htotal, htotal]
    have hsum : kept.totalRun + totalRun lost = ops.totalRun := by
      rw [← totalRun_perm hperm, totalRun, totalRun, totalRun, sumOf_append]
    cases lost with
    | nil => rfl
    | cons op lost =>
      have hop := hpos op (hperm.subset (List.mem_append_right _ List.mem_cons_self))
      simp only [totalRun, sumOf_cons] at hsum hsame
      omega
  · rintro rfl kind
    rw [List.append_nil] at hperm
    rw [hsub.eq_of_length hperm.length_eq]

end Script

end BytePatch
