import BytePatch.Proofs.Script.Stretches
import BytePatch.Proofs.Stage.Cut
import BytePatch.Stage.Unchunk

/-! Scripts region by region: a region is a longest stretch of copies, or of deletes and inserts.
What a region is gathered into does not depend on how its ops were cut before. -/
namespace BytePatch

namespace Unchunk

theorem sameRegion_iff {a b : Op} : sameRegion a b ↔ (a.kind = .copy ↔ b.kind = .copy) := by
  simp [sameRegion]

theorem sameRegion_cons {first : Op} {region : Script} (h : ∀ op ∈ region, sameRegion first op) :
    ∀ op ∈ first :: region, sameRegion first op :=
  List.forall_mem_cons.2 ⟨sameRegion_iff.2 Iff.rfl, h⟩

theorem sameRegion_congr {a a' b b' : Op} (ha : a.kind = a'.kind) (hb : b.kind = b'.kind) :
    sameRegion a b = sameRegion a' b' := by
  rw [sameRegion, sameRegion, ha, hb]

/-- A region as one op of the kind of its first op and then one of the other kind. -/
def gathered : Script → Script
  | [] => []
  | first :: rest => regroup first.kind (first :: rest)

theorem gathered_eq {region : Script} {lead : Kind}
    (h : region.head?.map Op.kind = some lead) : gathered region = regroup lead region := by
  cases region with
  | nil => cases h
  | cons first rest =>
    cases h
    rfl

end Unchunk

namespace Script

open Unchunk (sameRegion sameRegion_iff)

/-- The longest stretches of copies, and of deletes and inserts. -/
def regions (ops : Script) : List Script := ops.splitBy sameRegion

/-- Every region gathered. -/
def regrouped (ops : Script) : Script := ops.regions.flatMap Unchunk.gathered

/-- Both are copies, or neither is. -/
def Together (a b : Op) : Prop := a.kind = .copy ↔ b.kind = .copy

theorem equivalence_together : Equivalence Together :=
  ⟨fun _ => Iff.rfl, fun h => h.symm, fun h h' => h.trans h'⟩

theorem stretches_regions (ops : Script) : Stretches Together ops.regions ops :=
  Stretches.splitBy equivalence_together (fun _ _ => sameRegion_iff) ops

/-- Regions stay regions if each is replaced by ops that belong with its own. -/
theorem regions_flatMap {f : Script → Script} {ops : Script}
    (hne : ∀ region ∈ ops.regions, f region ≠ [])
    (hkept : ∀ region ∈ ops.regions, ∀ op ∈ f region, ∃ a ∈ region, Together a op) :
    regions (ops.regions.flatMap f) = ops.regions.map f :=
  ((stretches_regions ops).flatMap equivalence_together hne hkept).splitBy_eq
    fun _ _ => sameRegion_iff

section Regions
variable {first : Op} {region rest : Script}

theorem regions_cons (hregion : ∀ op ∈ region, sameRegion first op)
    (hrest : ∀ op ∈ rest.head?, ¬ sameRegion first op) :
    regions (first :: region ++ rest) = (first :: region) :: regions rest := by
  have hsame := Unchunk.sameRegion_cons hregion
  have hchain : (first :: region).IsChain fun a b => sameRegion a b = true :=
    List.Pairwise.isChain (List.pairwise_iff_forall_sublist.2 fun {a b} hab => by
      have ha := sameRegion_iff.1 (hsame a (hab.subset List.mem_cons_self))
      have hb := sameRegion_iff.1 (hsame b (hab.subset (List.mem_cons_of_mem _ List.mem_cons_self)))
      exact sameRegion_iff.2 (ha.symm.trans hb))
  have hends : ∀ a ∈ (first :: region).getLast?, ∀ b ∈ rest.head?, sameRegion a b = false := by
    intro a ha b hb
    have ha := sameRegion_iff.1 (hsame a (List.mem_of_mem_getLast? ha))
    have hb := hrest b hb
    rw [sameRegion_iff, ha, ← sameRegion_iff, Bool.not_eq_true] at hb
    exact hb
  rw [regions, List.splitBy_append hends, List.splitBy_of_isChain (List.cons_ne_nil _ _) hchain]
  rfl

theorem regrouped_cons (hregion : ∀ op ∈ region, sameRegion first op)
    (hrest : ∀ op ∈ rest.head?, ¬ sameRegion first op) :
    regrouped (first :: region ++ rest) =
      Unchunk.regroup first.kind (first :: region) ++ regrouped rest := by
  rw [regrouped, regions_cons hregion hrest]
  rfl

/-- Every script is put together from regions. -/
@[elab_as_elim]
theorem region_induction {motive : Script → Prop} (nil : motive [])
    (region : ∀ first region rest, (∀ op ∈ region, sameRegion first op) →
      (∀ op ∈ rest.head?, ¬ sameRegion first op) → motive rest →
      motive (first :: region ++ rest)) (ops : Script) : motive ops := by
  cases ops with
  | nil => exact nil
  | cons first ops =>
    have hless : (ops.dropWhile (sameRegion first)).length < (first :: ops).length :=
      Nat.lt_succ_of_le (List.dropWhile_suffix _).length_le
    have hrest := region_induction nil region (ops.dropWhile (sameRegion first))
    have key := region first (ops.takeWhile (sameRegion first)) (ops.dropWhile (sameRegion first))
      (List.all_eq_true.1 List.all_takeWhile)
      (fun op hop => by
        have := List.head?_dropWhile_not (sameRegion first) ops
        rw [Option.mem_def] at hop
        simpa [hop] using this)
      hrest
    rwa [List.cons_append, List.takeWhile_append_dropWhile] at key
termination_by ops.length
decreasing_by exact hless

end Regions

private theorem copies_or_edits {first : Op} {region : Script}
    (h : ∀ op ∈ region, sameRegion first op) :
    (∀ op ∈ first :: region, op.kind = .copy) ∨ ∀ op ∈ first :: region, op.kind ≠ .copy := by
  by_cases hfirst : first.kind = .copy
  · refine .inl (List.forall_mem_cons.2 ⟨hfirst, fun op hop => ?_⟩)
    exact (sameRegion_iff.1 (h op hop)).1 hfirst
  · refine .inr (List.forall_mem_cons.2 ⟨hfirst, fun op hop hk => ?_⟩)
    exact hfirst ((sameRegion_iff.1 (h op hop)).2 hk)

private theorem regroup_copies {ops : Script} (h : ∀ op ∈ ops, op.kind = .copy) :
    Unchunk.regroup .copy ops = grouped ops := by
  have hall : ops.filter (·.kind = .copy) = ops := List.filter_eq_self.2 (by simpa using h)
  have hnone : ops.filter (·.kind ≠ .copy) = [] := List.filter_eq_nil_iff.2 (by simpa using h)
  rw [Unchunk.regroup, hall, hnone]
  exact List.append_nil _

private theorem regroup_edits {lead : Kind} (hlead : lead = .delete ∨ lead = .insert) {ops : Script}
    (h : ∀ op ∈ ops, op.kind ≠ .copy) : Unchunk.regroup lead ops =
      grouped (ops.filter (·.kind = lead)) ++ grouped (ops.filter (·.kind = lead.inverse)) := by
  have hother : ops.filter (·.kind ≠ lead) = ops.filter (·.kind = lead.inverse) := by
    refine List.filter_congr fun op hop => ?_
    have hk := h op hop
    rcases hlead with rfl | rfl <;> cases op <;> simp_all [Op.kind, Kind.inverse]
  rw [Unchunk.regroup, hother]

private theorem regroup_cut (size : Nat) {first : Op} {region : Script}
    (h : ∀ op ∈ region, sameRegion first op) :
    Unchunk.regroup first.kind (Chunk.cut size (first :: region)) =
      Unchunk.regroup first.kind (first :: region) := by
  rcases copies_or_edits h with hcopies | hedits
  · rw [Chunk.cut_copies hcopies]
  · have hcut : ∀ piece ∈ Chunk.cut size (first :: region), piece.kind ≠ .copy := by
      intro piece hp
      obtain ⟨op, hop, hpiece⟩ := Chunk.piece_of_mem_cut hp
      rw [hpiece.kind_eq]
      exact hedits op hop
    have hlead : first.kind = .delete ∨ first.kind = .insert := by
      have := hedits first List.mem_cons_self
      cases first <;> simp_all [Op.kind]
    have hparts (kind : Kind) :
        grouped ((Chunk.cut size (first :: region)).filter (·.kind = kind)) =
          grouped ((first :: region).filter (·.kind = kind)) := by
      rw [Chunk.filter_cut, grouped_flatMap (Chunk.merges_pieces size)]
    rw [regroup_edits hlead hcut, regroup_edits hlead hedits, hparts, hparts]

/-- Ops of different regions do not replace each other, so each region is cut for itself. -/
theorem cut_of_stretches (size : Nat) {parts : List Script} {ops : Script}
    (h : Stretches Together parts ops) : Chunk.cut size ops = parts.flatMap (Chunk.cut size) := by
  induction parts generalizing ops with
  | nil =>
    obtain rfl : ops = [] := h.flatten.symm
    rfl
  | cons part parts ih =>
    obtain ⟨rest, rfl, hrest, hapart⟩ := h.cons
    rw [List.flatMap_cons, ← ih hrest]
    refine Chunk.cut_append size fun a ha b hb hreplaces => hapart a ha b hb ?_
    obtain ⟨hna, hnb, -⟩ := Chunk.kinds_of_replaces hreplaces
    exact iff_of_false hna hnb

theorem regions_cut (size : Nat) (ops : Script) :
    regions (Chunk.cut size ops) = ops.regions.map (Chunk.cut size) := by
  rw [cut_of_stretches size (stretches_regions ops)]
  refine regions_flatMap (fun region hregion hnil => ?_) fun region _ piece hpiece => ?_
  · have hhead := Chunk.head?_cut size region
    rw [hnil] at hhead
    exact (stretches_regions ops).nonempty region hregion
      (List.head?_eq_none_iff.1 (Option.map_eq_none_iff.1 hhead.symm))
  · obtain ⟨op, hop, hp⟩ := Chunk.piece_of_mem_cut hpiece
    exact ⟨op, hop, by rw [Together, hp.kind_eq]⟩

/-- Cutting leaves no trace in what regions are gathered into. -/
theorem regrouped_cut (size : Nat) (ops : Script) :
    regrouped (Chunk.cut size ops) = regrouped ops := by
  rw [regrouped, regions_cut, List.flatMap_map]
  refine List.flatMap_congr fun region hregion => ?_
  cases region with
  | nil => rfl
  | cons first region =>
    have hwithin := (stretches_regions ops).within _ hregion first List.mem_cons_self
    rw [Unchunk.gathered_eq (Chunk.head?_cut size (first :: region))]
    exact regroup_cut size fun op hop =>
      sameRegion_iff.2 (hwithin op (List.mem_cons_of_mem first hop))

/-- No more than one delete and no more than one insert. -/
def Single (ops : Script) : Prop :=
  ops.countP (·.kind = .delete) ≤ 1 ∧ ops.countP (·.kind = .insert) ≤ 1

private theorem regroup_single {first : Op} {region : Script}
    (hedits : ∀ op ∈ first :: region, op.kind ≠ .copy) (h : Single (first :: region)) :
    Unchunk.regroup first.kind (first :: region) = grouped (first :: region) := by
  obtain ⟨hdelete, hinsert⟩ := h
  have hnot : (first :: region).countP (¬ ·.kind = .delete) =
      (first :: region).countP (·.kind = .insert) := by
    refine List.countP_congr fun op hop => ?_
    have := hedits op hop
    cases op <;> simp_all [Op.kind]
  have htwo : (first :: region).length ≤ 2 := by
    have := List.length_eq_countP_add_countP (·.kind = .delete) (l := first :: region)
    simp only [decide_eq_true_eq] at this
    omega
  cases region with
  | nil => simp [Unchunk.regroup, grouped, prepend]
  | cons second region =>
    obtain rfl : region = [] := List.eq_nil_of_length_eq_zero (by simpa using htwo)
    have hkinds : first.kind ≠ second.kind := by
      cases first <;> cases second <;> simp_all [Op.kind]
    rw [grouped_cons_cons hkinds]
    simp [Unchunk.regroup, grouped, prepend, hkinds.symm]

/-- Where no stretch without copies has two deletes or two inserts, merging neighbours does it. -/
theorem regrouped_eq_grouped {ops : Script}
    (h : ∀ stretch ∈ ops.regions, (∀ op ∈ stretch, op.kind ≠ .copy) → stretch.Single) :
    regrouped ops = grouped ops := by
  induction ops using region_induction with
  | nil => rfl
  | region first region rest hregion hrest ih =>
    rw [regions_cons hregion hrest, List.forall_mem_cons] at h
    have hgather : Unchunk.regroup first.kind (first :: region) = grouped (first :: region) := by
      rcases copies_or_edits hregion with hcopies | hedits
      · rw [hcopies first List.mem_cons_self, regroup_copies hcopies]
      · exact regroup_single hedits (h.1 hedits)
    have hsame := Unchunk.sameRegion_cons hregion
    have happend : grouped (first :: region ++ rest) = grouped (first :: region) ++ grouped rest := by
      refine grouped_append fun x hx y hy hk => hrest y hy ?_
      rw [Unchunk.sameRegion_congr rfl hk.symm]
      exact hsame x (List.mem_of_mem_getLast? hx)
    rw [regrouped_cons hregion hrest, hgather, ih h.2, happend]

end Script

end BytePatch
