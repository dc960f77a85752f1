import BytePatch.Proofs.Script.Regrouping

/-! What regions are gathered into, said without merging one op after another: an op for each kind in
a region, which stands for all its ops of that kind. What has been gathered is gathered into
itself. -/
namespace BytePatch

namespace Script

/-- The bytes that ops carry, in a row. -/
def bytes (ops : Script) : Bytes := ops.flatMap fun op => op.payload?.getD []

/-- One op for ops of a kind. Copies and deletes add up their runs, inserts put their bytes in a row,
and deletes do that too if each of them has its bytes. -/
def sum (kind : Kind) (ops : Script) : Op :=
  match kind with
  | .insert => .insert ops.bytes
  | .delete =>
    if ∀ op ∈ ops, op.payload?.isSome then .delete ops.bytes else .skip ops.totalRun
  | .copy | .stop => .copy ops.totalRun

/-- One op for the ops of each kind, in the order in which the kinds first appear. -/
def summary (ops : Script) : Script :=
  (ops.map Op.kind).eraseDups.map fun kind => sum kind (ops.filter (·.kind = kind))

private theorem length_bytes {ops : Script} (h : ∀ op ∈ ops, op.payload?.isSome) :
    ops.bytes.length = ops.totalRun := by
  induction ops with
  | nil => rfl
  | cons op ops ih =>
    obtain ⟨hop, hops⟩ := List.forall_mem_cons.1 h
    have hrun : (op.payload?.getD []).length = op.run := by
      cases op with
      | copy run => cases hop
      | skip run => cases hop
      | delete bytes => rfl
      | insert bytes => rfl
    rw [bytes, List.flatMap_cons, List.length_append, hrun]
    exact congrArg (op.run + ·) (ih hops)

private theorem sum_singleton (op : Op) : sum op.kind [op] = op := by
  cases op <;> simp [sum, Op.kind, Op.payload?, bytes, totalRun, Op.run]

private theorem merge?_sum (op : Op) (ops : Script) :
    op.merge? (sum op.kind ops) = some (sum op.kind (op :: ops)) := by
  cases op with
  | copy run => rfl
  | insert added => rfl
  | skip run =>
    have hskip : sum .delete (.skip run :: ops) = .skip (run + ops.totalRun) := by
      simp [sum, Op.payload?, totalRun, Op.run]
    rw [Op.kind, hskip, sum]
    by_cases hall : ∀ op ∈ ops, op.payload?.isSome
    · rw [if_pos hall, Op.merge?, length_bytes hall]
    · rw [if_neg hall, Op.merge?]
  | delete passed =>
    have hcons : (∀ op ∈ .delete passed :: ops, op.payload?.isSome) ↔
        ∀ op ∈ ops, op.payload?.isSome :=
      List.forall_mem_cons.trans (and_iff_right rfl)
    rw [Op.kind, sum, sum]
    simp only [hcons]
    split <;> rfl

theorem grouped_eq_sum {kind : Kind} {ops : Script} (hne : ops ≠ [])
    (h : ∀ op ∈ ops, op.kind = kind) : grouped ops = [sum kind ops] := by
  induction ops with
  | nil => exact absurd rfl hne
  | cons op ops ih =>
    obtain ⟨rfl, hops⟩ := List.forall_mem_cons.1 h
    cases ops with
    | nil =>
      rw [sum_singleton]
      rfl
    | cons next ops =>
      rw [grouped_cons, ih (List.cons_ne_nil _ _) hops, prepend, merge?_sum]

end Script

private theorem eraseDups_of_forall_eq {α : Type} [BEq α] [LawfulBEq α] {a : α} {xs : List α}
    (hne : xs ≠ []) (h : ∀ x ∈ xs, x = a) : xs.eraseDups = [a] := by
  cases xs with
  | nil => exact absurd rfl hne
  | cons x xs =>
    obtain ⟨rfl, hxs⟩ := List.forall_mem_cons.1 h
    have hnone : xs.filter (fun b => !b == x) = [] :=
      List.filter_eq_nil_iff.2 fun b hb => by simp [hxs b hb]
    rw [List.eraseDups_cons, hnone]
    rfl

namespace Script

open Unchunk (regroup gathered)

section Region
variable {first : Op} {rest : Script}

private theorem eraseDups_kinds (first : Op) (rest : Script) :
    ((first :: rest).map Op.kind).eraseDups = first.kind ::
      (((first :: rest).filter (·.kind ≠ first.kind)).map Op.kind).eraseDups := by
  have hfilter : (rest.map Op.kind).filter (fun kind => !kind == first.kind) =
      (rest.filter (·.kind ≠ first.kind)).map Op.kind := by
    rw [List.filter_map]
    congr 1
    refine List.filter_congr fun op _ => ?_
    rw [Function.comp, beq_eq_decide, decide_not]
  rw [List.map_cons, List.eraseDups_cons, hfilter, List.filter_cons_of_neg (by simp)]

private theorem kind_eq_iff {a b : Op} (ha : Together first a) (hb : Together first b)
    (hne : a.kind ≠ first.kind) : b.kind = a.kind ↔ b.kind ≠ first.kind := by
  unfold Together at ha hb
  cases first <;> cases a <;> cases b <;> simp_all [Op.kind]

/-- A region is gathered into one op for each of its kinds. -/
theorem gathered_eq_summary (h : ∀ op ∈ first :: rest, Together first op) :
    gathered (first :: rest) = summary (first :: rest) := by
  have hlead : grouped ((first :: rest).filter (·.kind = first.kind)) =
      [sum first.kind ((first :: rest).filter (·.kind = first.kind))] :=
    grouped_eq_sum (by simp) fun op hop => by simpa using (List.mem_filter.1 hop).2
  rw [gathered, regroup, hlead, summary, eraseDups_kinds, List.map_cons, List.singleton_append]
  congr 1
  cases hothers : (first :: rest).filter (·.kind ≠ first.kind) with
  | nil => rfl
  | cons other others =>
    have hother : other ∈ (first :: rest).filter (·.kind ≠ first.kind) :=
      hothers ▸ List.mem_cons_self
    obtain ⟨hmem, hne⟩ := List.mem_filter.1 hother
    have hkind : ∀ op ∈ first :: rest, op.kind = other.kind ↔ op.kind ≠ first.kind :=
      fun op hop => kind_eq_iff (h other hmem) (h op hop) (by simpa using hne)
    have hsame : (first :: rest).filter (·.kind = other.kind) = other :: others := by
      rw [← hothers]
      exact List.filter_congr fun op hop => by simp [hkind op hop]
    have hall : ∀ op ∈ other :: others, op.kind = other.kind := fun op hop => by
      rw [← hsame] at hop
      simpa using (List.mem_filter.1 hop).2
    rw [eraseDups_of_forall_eq (a := other.kind) (by simp) (List.forall_mem_map.2 hall),
      List.map_singleton, hsame]
    exact grouped_eq_sum (List.cons_ne_nil _ _) hall

end Region

private theorem regroup_append {lead : Kind} {xs ys : Script} (hx : ∀ op ∈ xs, op.kind = lead)
    (hy : ∀ op ∈ ys, op.kind ≠ lead) : regroup lead (xs ++ ys) = grouped xs ++ grouped ys := by
  have hlead : (xs ++ ys).filter (·.kind = lead) = xs := by
    rw [List.filter_append, List.filter_eq_self.2 (by simpa using hx),
      List.filter_eq_nil_iff.2 (by simpa using hy), List.append_nil]
  have hother : (xs ++ ys).filter (·.kind ≠ lead) = ys := by
    rw [List.filter_append, List.filter_eq_nil_iff.2 (by simpa using hx),
      List.filter_eq_self.2 (by simpa using hy), List.nil_append]
  rw [regroup, hlead, hother]

private theorem regroup_regroup (lead : Kind) (region : Script) :
    regroup lead (regroup lead region) = regroup lead region := by
  have hgrouped (ops : Script) : grouped (grouped ops) = grouped ops :=
    (alternates_grouped ops).grouped_eq
  have hregroup : regroup lead region = grouped (region.filter (·.kind = lead)) ++
      grouped (region.filter (·.kind ≠ lead)) := rfl
  rw [hregroup, regroup_append, hgrouped, hgrouped]
  · intro op hop
    obtain ⟨a, ha, hk⟩ := exists_kind_of_mem_grouped hop
    rw [← hk]
    simpa using (List.mem_filter.1 ha).2
  · intro op hop
    obtain ⟨a, ha, hk⟩ := exists_kind_of_mem_grouped hop
    rw [← hk]
    simpa using (List.mem_filter.1 ha).2

private theorem gathered_gathered (region : Script) :
    gathered (gathered region) = gathered region := by
  cases region with
  | nil => rfl
  | cons first rest =>
    have hlead : (first :: rest).filter (·.kind = first.kind) =
        first :: rest.filter (·.kind = first.kind) := List.filter_cons_of_pos (by simp)
    obtain ⟨op, ops, hgroup, hkind⟩ :=
      exists_grouped_cons first (rest.filter (·.kind = first.kind))
    have hhead : (regroup first.kind (first :: rest)).head?.map Op.kind = some first.kind := by
      rw [regroup, hlead, hgroup]
      exact congrArg some hkind
    rw [gathered, Unchunk.gathered_eq hhead, regroup_regroup]

theorem regions_regrouped (ops : Script) :
    regions (regrouped ops) = ops.regions.map gathered := by
  refine regions_flatMap (fun region hregion => ?_) fun region _ op hop => ?_
  · cases region with
    | nil => exact absurd rfl ((stretches_regions ops).nonempty _ hregion)
    | cons first rest => exact Unchunk.regroup_ne_nil first rest
  · cases region with
    | nil => cases hop
    | cons first rest =>
      rcases List.mem_append.1 hop with hop | hop <;>
        obtain ⟨a, ha, hk⟩ := exists_kind_of_mem_grouped hop <;>
          exact ⟨a, (List.mem_filter.1 ha).1, by rw [Together, hk]⟩

theorem regrouped_regrouped (ops : Script) : regrouped (regrouped ops) = regrouped ops := by
  rw [regrouped, regions_regrouped, List.flatMap_map, regrouped]
  exact List.flatMap_congr fun region _ => gathered_gathered region

/-- Each region comes to its summary. -/
theorem regrouped_eq_summaries (ops : Script) : regrouped ops = ops.regions.flatMap summary := by
  refine List.flatMap_congr fun region hregion => ?_
  cases region with
  | nil => rfl
  | cons first rest =>
    exact gathered_eq_summary
      ((stretches_regions ops).within _ hregion first List.mem_cons_self)

end Script

end BytePatch
