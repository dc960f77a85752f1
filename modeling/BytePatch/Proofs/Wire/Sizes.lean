import BytePatch.Proofs.Pipeline.Forward
import BytePatch.Proofs.Queue.Delivery
import BytePatch.Proofs.Script.Grouping

/-! Encoded sizes along a stack. A number of two summands takes no more bytes than both do, so an op
that stands for two takes no more than they did, and neither does a script whose ops are merged,
cancelled, gathered or made to forget. -/
namespace BytePatch

namespace Varint

theorem size_mono {a b : Nat} (h : a ≤ b) : size a ≤ size b := by
  fun_induction size b generalizing a with
  | case1 b hb =>
    rw [size, if_pos (Nat.lt_of_le_of_lt h hb)]
  | case2 b hb ih =>
    by_cases ha : a < 128
    · rw [size, if_pos ha]
      omega
    · rw [size, if_neg ha]
      exact Nat.succ_le_succ (ih (Nat.div_le_div_right h))

theorem size_group_le (value : Nat) : size (128 * value + 127) ≤ size value + 1 := by
  rw [size]
  split
  · omega
  · rw [show (128 * value + 127) / 128 = value by omega]

private theorem size_add_le_of_le {a b : Nat} (h : a ≤ b) : size (a + b) ≤ size a + size b :=
  calc size (a + b)
    _ ≤ size (128 * b + 127) := size_mono (by omega)
    _ ≤ size b + 1 := size_group_le b
    _ ≤ size b + size a := Nat.add_le_add_left (size_pos a) _
    _ = size a + size b := Nat.add_comm ..

theorem size_add_le (a b : Nat) : size (a + b) ≤ size a + size b := by
  rcases Nat.le_total a b with h | h
  · exact size_add_le_of_le h
  · rw [Nat.add_comm a, Nat.add_comm (size a)]
    exact size_add_le_of_le h

end Varint

namespace Op

theorem encodedSize_forget_le (op : Op) : op.forget.encodedSize ≤ op.encodedSize := by
  cases op <;> simp [encodedSize, forget, run, payload?]

theorem encodedSize_merge?_le {a b op : Op} (h : a.merge? b = some op) :
    op.encodedSize ≤ a.encodedSize + b.encodedSize := by
  have hsize := Varint.size_add_le a.run b.run
  rw [← run_of_merge? h] at hsize
  cases a <;> cases b <;> cases h <;> simp [encodedSize, run, payload?] at hsize ⊢ <;> omega

theorem encodedSize_combine?_le {a b op : Op} (h : a.combine? b = some op) :
    op.encodedSize ≤ a.encodedSize + b.encodedSize := by
  unfold combine? at h
  split at h
  · split at h <;> cases h
    simp only [encodedSize, run, payload?, Option.map, Option.getD]
    omega
  · split at h <;> cases h
    simp only [encodedSize, run, payload?, Option.map, Option.getD]
    omega
  · exact encodedSize_merge?_le h

end Op

namespace Script

@[simp] theorem encodedSize_nil : encodedSize [] = 1 := rfl

@[simp] theorem encodedSize_cons (op : Op) (ops : Script) :
    encodedSize (op :: ops) = op.encodedSize + encodedSize ops := by
  simp only [encodedSize, sumOf_cons, Nat.add_assoc]

/-- Two scripts in a row need only one end marker. -/
theorem encodedSize_append (xs ys : Script) :
    encodedSize (xs ++ ys) + 1 = encodedSize xs + encodedSize ys := by
  simp only [encodedSize, sumOf_append]
  omega

theorem encodedSize_filter_add (p : Op → Bool) (ops : Script) :
    encodedSize (ops.filter p) + encodedSize (ops.filter (!p ·)) = encodedSize ops + 1 := by
  induction ops with
  | nil => rfl
  | cons op ops ih => cases hp : p op <;> simp [hp] <;> omega

theorem encodedSize_grouped_le (ops : Script) : encodedSize (grouped ops) ≤ encodedSize ops := by
  induction ops with
  | nil => exact Nat.le_refl _
  | cons op ops ih =>
    rw [grouped_cons, encodedSize_cons]
    cases hg : grouped ops with
    | nil =>
      rw [hg] at ih
      simpa [prepend] using ih
    | cons next rest =>
      rw [hg, encodedSize_cons] at ih
      cases hm : op.merge? next with
      | none =>
        rw [prepend, hm, encodedSize_cons, encodedSize_cons]
        omega
      | some both =>
        have hboth := Op.encodedSize_merge?_le hm
        rw [prepend, hm, encodedSize_cons]
        omega

theorem encodedSize_regroup_le (lead : Kind) (region : Script) :
    encodedSize (Unchunk.regroup lead region) ≤ encodedSize region := by
  have hsplit := encodedSize_filter_add (·.kind = lead) region
  have hlead := encodedSize_grouped_le (region.filter (·.kind = lead))
  have hother := encodedSize_grouped_le (region.filter (·.kind ≠ lead))
  have hparts := encodedSize_append (grouped (region.filter (·.kind = lead)))
    (grouped (region.filter (·.kind ≠ lead)))
  simp only [ne_eq, decide_not, Unchunk.regroup] at *
  omega

end Script

/-- Scripts that take no more bytes may stand for others, whatever those are. -/
def Refinement.smaller : Refinement where
  Fit _ := True
  Rel xs ys := ys.encodedSize ≤ xs.encodedSize
  refl _ := Nat.le_refl _
  trans h h' := Nat.le_trans h' h
  append {xs xs' ys ys'} hx hy := by
    have := Script.encodedSize_append xs ys
    have := Script.encodedSize_append xs' ys'
    omega
  fit _ _ := trivial
  left _ := trivial
  right _ := trivial

theorem Refinement.smaller_pair {a b op : Op}
    (h : op.encodedSize ≤ a.encodedSize + b.encodedSize) : smaller.Rel [a, b] [op] := by
  simp only [smaller, Script.encodedSize_cons, Script.encodedSize_nil]
  omega

/-- A layer that only says more shortly what it reads. -/
def Work.Normalises (work : Work) : Prop :=
  work = .coalesce ∨ work = .compact ∨ work = .unchunk ∨ work = .forget

theorem Work.Normalises.within {work : Work} (h : work.Normalises) (Fails : Fault → Prop) :
    work.Within .smaller Fails := by
  rcases h with rfl | rfl | rfl | rfl
  · intro a b op _ hm
    exact Refinement.smaller_pair (Op.encodedSize_merge?_le hm)
  · intro a b op _ hc
    exact Refinement.smaller_pair (Op.encodedSize_combine?_le hc)
  · intro first rest _ _
    exact Script.encodedSize_regroup_le first.kind (first :: rest)
  · intro op _
    simpa [Refinement.smaller] using Op.encodedSize_forget_le op

theorem Work.Normalises.fresh {work : Work} (h : work.Normalises) : work.Fresh := by
  rcases h with rfl | rfl | rfl | rfl <;> trivial

theorem Work.Normalises.pairs {work : Work} (h : work.Normalises)
    (P : Aligner → Bytes → Bytes → Prop) (pending rest : Script) : work.Pairs P pending rest := by
  rcases h with rfl | rfl | rfl | rfl <;> trivial

namespace Queue

private theorem Carries.normalised {queue : Queue} {Fails : Fault → Prop} {ops : Script}
    (h : queue.Carries .smaller Fails ops) {works : List Work}
    (hworks : ∀ work ∈ works, work.Normalises) :
    (works.foldl (fun queue work => queue.under work) queue).Carries .smaller Fails ops := by
  induction works generalizing queue with
  | nil => exact h
  | cons work works ih =>
    obtain ⟨hwork, hworks⟩ := List.forall_mem_cons.1 hworks
    exact ih (h.under work (hwork.within Fails) hwork.fresh (hwork.pairs _ _ _)) hworks

/-- Layers that normalise a script, however many and in whatever order, give one that takes no more
bytes than what they read. -/
theorem encodedSize_drain_le {source : Queue} {ops : Script} (h : source.Delivers ops)
    {works : List Work} (hworks : ∀ work ∈ works, work.Normalises) :
    ∃ out after,
      (works.foldl (fun queue work => queue.under work) source).drain = (.ok (), out, after) ∧
      Script.encodedSize out ≤ Script.encodedSize ops := by
  have hsource : source.Carries .smaller (fun _ => False) ops :=
    h.carries.weaken .smaller (fun _ _ heq => heq ▸ Refinement.smaller.refl _) nofun trivial
  have hdrain := (hsource.normalised hworks).drain
  generalize (works.foldl (fun queue work => queue.under work) source).drain = result at hdrain ⊢
  obtain ⟨fault | _, out, after⟩ := result
  · exact hdrain.elim
  · exact ⟨out, after, rfl, hdrain⟩

/-- Two runs of one byte that make one of two, a delete that is taken back at once, and deletes of
which only one remembers its bytes. -/
def crossing : Script :=
  [.copy 100, .copy 100, .delete [1, 2], .insert [1, 2], .copy 5, .insert [3], .skip 120, .delete [4],
    .insert [5]]

theorem encodedSize_drain_le_crossing : ∃ out after,
    ([Work.coalesce, .compact, .unchunk, .forget].foldl (fun queue work => queue.under work)
      (ofSource (.ofList crossing))).drain = (.ok (), out, after) ∧
    Script.encodedSize out ≤ crossing.encodedSize := by
  have hworks : ∀ work ∈ [Work.coalesce, .compact, .unchunk, .forget], work.Normalises := by
    simp [Work.Normalises]
  exact encodedSize_drain_le (delivers_list crossing) hworks

end Queue

end BytePatch
