import BytePatch.Proofs.Script.Groups
import BytePatch.Proofs.Stage.Pieces

/-! Grouping by the ops at hand: two neighbours of one kind may be merged beforehand, an op may be
cut into pieces beforehand, and where the kind changes a script is grouped in parts. -/
namespace BytePatch

namespace Op

theorem merge?_eq_none_iff {a b : Op} : a.merge? b = none ↔ a.kind ≠ b.kind := by
  cases a <;> cases b <;> simp [merge?, kind]

/-- It does not matter which two of three ops are merged first. -/
theorem merge?_assoc {a b c ab bc : Op} (hab : a.merge? b = some ab) (hbc : b.merge? c = some bc) :
    a.merge? bc = ab.merge? c := by
  cases a <;> cases b <;> cases c <;> cases hab <;> cases hbc <;> simp [merge?, Nat.add_assoc]

/-- The pieces in a row merge into the op. -/
inductive Merges : List Op → Op → Prop
  | single (op : Op) : Merges [op] op
  | cons {a b op : Op} {pieces : List Op} : Merges pieces b → a.merge? b = some op →
    Merges (a :: pieces) op

end Op

namespace Chunk

private theorem merges_runsOf {size run : Nat} (h : run ≠ 0) :
    Op.Merges ((runsOf size run).map .skip) (.skip run) := by
  fun_induction runsOf size run with
  | case1 => exact absurd rfl h
  | case2 run hr ih =>
    by_cases hrest : run - min (max 1 size) run = 0
    · have hrun : min (max 1 size) run = run := by omega
      rw [hrest, runsOf, if_pos rfl, hrun]
      exact .single _
    · refine .cons (ih hrest) ?_
      simp only [Op.merge?]
      congr 2
      omega

private theorem merges_blocksOf {make : Bytes → Op}
    (hmake : ∀ a b, (make a).merge? (make b) = some (make (a ++ b))) {size : Nat} {bytes : Bytes}
    (h : bytes ≠ []) : Op.Merges ((blocksOf size bytes).map make) (make bytes) := by
  fun_induction blocksOf size bytes with
  | case1 => exact absurd rfl h
  | case2 byte rest ih =>
    by_cases hrest : rest.drop (size - 1) = []
    · have htake : rest.take (size - 1) = rest := by
        simpa [hrest] using List.take_append_drop (size - 1) rest
      rw [hrest, blocksOf, htake]
      exact .single _
    · refine .cons (ih hrest) ?_
      rw [hmake, List.cons_append, List.take_append_drop]

theorem merges_pieces (size : Nat) (op : Op) : Op.Merges (pieces size op) op := by
  unfold pieces
  split
  · exact .single op
  next hr =>
  cases op with
  | copy run => exact .single _
  | skip run => exact merges_runsOf fun h => hr (by rw [h]; exact Nat.zero_le size)
  | delete bytes =>
    exact merges_blocksOf (fun _ _ => rfl) fun h => hr (by rw [h]; exact Nat.zero_le size)
  | insert bytes =>
    exact merges_blocksOf (fun _ _ => rfl) fun h => hr (by rw [h]; exact Nat.zero_le size)

end Chunk

namespace Script

private theorem prepend_merged {a b op : Op} (h : a.merge? b = some op) (ops : Script) :
    prepend a (prepend b ops) = prepend op ops := by
  have hkind : a.kind = b.kind := (Op.merge?_isSome_iff a b).1 (by rw [h]; rfl)
  cases ops with
  | nil => simp [prepend, h]
  | cons next rest =>
    cases hbn : b.merge? next with
    | none =>
      have hop : op.merge? next = none := by
        rw [Op.merge?_eq_none_iff] at hbn ⊢
        rwa [Op.kind_of_merge? h, hkind]
      simp [prepend, hbn, hop, h]
    | some both =>
      have hassoc := Op.merge?_assoc h hbn
      obtain ⟨all, hall⟩ : ∃ all, a.merge? both = some all := by
        rw [← Option.isSome_iff_exists, Op.merge?_isSome_iff, Op.kind_of_merge? hbn, hkind]
      simp [prepend, hbn, hall, ← hassoc]

private theorem prepend_append (op next : Op) (rest ops : Script) :
    prepend op (next :: rest ++ ops) = prepend op (next :: rest) ++ ops := by
  cases h : op.merge? next <;> simp [prepend, h]

theorem grouped_cons (op : Op) (ops : Script) : grouped (op :: ops) = prepend op (grouped ops) :=
  rfl

theorem grouped_merged {a b op : Op} (h : a.merge? b = some op) (ops : Script) :
    grouped (a :: b :: ops) = grouped (op :: ops) := prepend_merged h (grouped ops)

theorem grouped_pieces {pieces : Script} {op : Op} (h : Op.Merges pieces op) (ops : Script) :
    grouped (pieces ++ ops) = grouped (op :: ops) := by
  induction h with
  | single => rfl
  | cons _ hm ih =>
    rw [List.cons_append, grouped_cons, ih]
    exact grouped_merged hm ops

/-- Cutting every op into pieces leaves no trace in the grouped form. -/
theorem grouped_flatMap {cut : Op → Script} (h : ∀ op, Op.Merges (cut op) op) (ops : Script) :
    grouped (ops.flatMap cut) = grouped ops := by
  induction ops with
  | nil => rfl
  | cons op ops ih => rw [List.flatMap_cons, grouped_pieces (h op), grouped_cons, ih, grouped_cons]

theorem grouped_append_congr (xs : Script) {ys zs : Script} (h : grouped ys = grouped zs) :
    grouped (xs ++ ys) = grouped (xs ++ zs) := by
  induction xs with
  | nil => exact h
  | cons x xs ih => rw [List.cons_append, List.cons_append, grouped_cons, ih, grouped_cons]

private theorem totalRun_prepend (op : Op) (ops : Script) :
    (ops.prepend op).totalRun = op.run + ops.totalRun := by
  cases ops with
  | nil => rfl
  | cons next rest =>
    cases hm : op.merge? next with
    | none =>
      rw [prepend, hm]
      rfl
    | some both =>
      rw [prepend, hm]
      simp only [totalRun, sumOf_cons, Op.run_of_merge? hm]
      omega

theorem totalRun_grouped (ops : Script) : (grouped ops).totalRun = ops.totalRun := by
  induction ops with
  | nil => rfl
  | cons op ops ih =>
    rw [grouped_cons, totalRun_prepend, ih]
    rfl

theorem exists_grouped_cons (op : Op) (ops : Script) :
    ∃ first rest, grouped (op :: ops) = first :: rest ∧ first.kind = op.kind := by
  rw [grouped_cons]
  cases grouped ops with
  | nil => exact ⟨op, [], rfl, rfl⟩
  | cons next rest =>
    cases hm : op.merge? next with
    | none => exact ⟨op, next :: rest, by rw [prepend, hm], rfl⟩
    | some both => exact ⟨both, rest, by rw [prepend, hm], Op.kind_of_merge? hm⟩

theorem exists_kind_of_mem_grouped {op : Op} {ops : Script} (h : op ∈ grouped ops) :
    ∃ a ∈ ops, a.kind = op.kind := by
  induction ops generalizing op with
  | nil => cases h
  | cons first ops ih =>
    have hlater {op : Op} (h : op ∈ grouped ops) : ∃ a ∈ first :: ops, a.kind = op.kind := by
      obtain ⟨a, ha, hk⟩ := ih h
      exact ⟨a, List.mem_cons_of_mem first ha, hk⟩
    rw [grouped_cons] at h
    cases hg : grouped ops with
    | nil =>
      rw [hg] at h
      obtain rfl := List.mem_singleton.1 h
      exact ⟨op, List.mem_cons_self, rfl⟩
    | cons next rest =>
      rw [hg] at hlater h
      cases hm : first.merge? next with
      | none =>
        rw [prepend, hm] at h
        rcases List.mem_cons.1 h with rfl | h
        · exact ⟨op, List.mem_cons_self, rfl⟩
        · exact hlater h
      | some both =>
        rw [prepend, hm] at h
        rcases List.mem_cons.1 h with rfl | h
        · exact ⟨first, List.mem_cons_self, (Op.kind_of_merge? hm).symm⟩
        · exact hlater (List.mem_cons_of_mem next h)

theorem run_pos_of_mem_grouped {ops : Script} (h : ∀ op ∈ ops, 0 < op.run) :
    ∀ op ∈ grouped ops, 0 < op.run := by
  induction ops with
  | nil => exact h
  | cons first ops ih =>
    obtain ⟨hfirst, hops⟩ := List.forall_mem_cons.1 h
    have hgrouped := ih hops
    rw [grouped_cons]
    cases hg : grouped ops with
    | nil => exact List.forall_mem_singleton.2 hfirst
    | cons next rest =>
      rw [hg] at hgrouped
      obtain ⟨hnext, hrest⟩ := List.forall_mem_cons.1 hgrouped
      cases hm : first.merge? next with
      | none =>
        rw [prepend, hm]
        exact List.forall_mem_cons.2 ⟨hfirst, hgrouped⟩
      | some both =>
        rw [prepend, hm]
        refine List.forall_mem_cons.2 ⟨?_, hrest⟩
        rw [Op.run_of_merge? hm]
        exact Nat.add_pos_left hfirst _

theorem grouped_cons_cons {a b : Op} (h : a.kind ≠ b.kind) (ops : Script) :
    grouped (a :: b :: ops) = a :: grouped (b :: ops) := by
  obtain ⟨first, rest, hb, hk⟩ := exists_grouped_cons b ops
  have hm : a.merge? first = none := Op.merge?_eq_none_iff.2 (hk ▸ h)
  rw [grouped_cons, hb, prepend, hm]

/-- A script is grouped in parts where the kind changes from one part to the next. -/
theorem grouped_append {xs ys : Script}
    (h : ∀ x ∈ xs.getLast?, ∀ y ∈ ys.head?, x.kind ≠ y.kind) :
    grouped (xs ++ ys) = grouped xs ++ grouped ys := by
  induction xs with
  | nil => rfl
  | cons x xs ih =>
    cases xs with
    | nil =>
      cases ys with
      | nil => rfl
      | cons y ys => exact grouped_cons_cons (h x rfl y rfl) ys
    | cons x' xs =>
      have ih := ih (by simpa using h)
      obtain ⟨first, rest, hfirst, -⟩ := exists_grouped_cons x' xs
      rw [List.cons_append, grouped_cons, ih, grouped_cons x, hfirst, prepend_append]

theorem Alternates.grouped_eq {ops : Script} (h : ops.Alternates) : grouped ops = ops := by
  induction ops with
  | nil => rfl
  | cons a ops ih =>
    cases ops with
    | nil => rfl
    | cons b ops =>
      obtain ⟨hab, hrest⟩ := List.isChain_cons_cons.1 h
      rw [grouped_cons_cons hab, ih hrest]

end Script

end BytePatch
