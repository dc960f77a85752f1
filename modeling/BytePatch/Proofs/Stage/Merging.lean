import BytePatch.Proofs.Queue.Ledger
import BytePatch.Stage.Coalesce
import BytePatch.Stage.Compact

/-! Refills of the two layers that join neighbours: whatever joins two ops keeps the script that
they are part of, however far into the held ops it is carried on. -/
namespace BytePatch

variable {σ : Type} {below : Feed σ} {R : Refinement} {Fails : Fault → Prop}

private theorem rel_join {xs ys : Script} {a b op : Op}
    (h : R.Fit [a, b] → R.Rel [a, b] [op]) (hf : R.Fit (xs ++ [a, b] ++ ys)) :
    R.Rel (xs ++ [a, b] ++ ys) (xs ++ [op] ++ ys) :=
  R.append (R.prepend xs (h (R.right (R.left hf)))) (R.refl ys)

namespace Coalesce

/-- Of two held ops either both become one or the older one is given away. -/
theorem settle_holds
    (hw : ∀ a b op, R.Fit [a, b] → a.merge? b = some op → R.Rel [a, b] [op]) (held : List Op)
    (hl : held.length ≤ 2) (hf : R.Fit held.reverse) :
    (settle held).Holds (fun held' => held'.length ≤ 1 ∧ R.Rel held.reverse held'.reverse)
      (fun given => given.2.length ≤ 1 ∧ R.Rel held.reverse (given.1 :: given.2.reverse)) := by
  match held with
  | [] => rw [settle]; exact ⟨by simp, R.refl _⟩; simp
  | [op] => rw [settle]; exact ⟨by simp, R.refl _⟩; simp
  | [next, prev] =>
    rw [settle]
    cases hm : prev.merge? next with
    | none => exact ⟨by simp, R.refl _⟩
    | some both =>
      simp only []
      rw [settle]
      · exact ⟨by simp, hw _ _ _ hf hm⟩
      · simp
  | _ :: _ :: _ :: _ => simp at hl

theorem refills (L : below.Ledger R Fails)
    (hw : ∀ a b op, R.Fit [a, b] → a.merge? b = some op → R.Rel [a, b] [op])
    {pending : List Op} {s : σ} (hs : L.Sound s) (hp : pending.length ≤ 1)
    (hf : R.Fit (pending ++ L.content s)) :
    L.Refills (fun pending _ => pending.length ≤ 1) (pending ++ L.content s)
      (shift below ⟨[], pending⟩ s) := by
  have hset := settle_holds hw pending.reverse (by simp; omega)
    (by simpa using R.left hf)
  unfold shift
  cases hm : settle pending.reverse with
  | done given =>
    rw [hm] at hset
    obtain ⟨hl, hr⟩ := hset
    rw [List.reverse_reverse] at hr
    refine ⟨hs, by simpa using hl, ?_, by simp⟩
    simpa using R.append hr (R.refl _)
  | more held =>
    rw [hm] at hset
    obtain ⟨hl, hr⟩ := hset
    rw [List.reverse_reverse] at hr
    have hr' := R.append hr (R.refl (L.content s))
    have key := L.consume hold List.reverse (fun given => given.1 :: given.2.reverse)
      (fun held => held.length ≤ 1) (fun given => given.2.length ≤ 1)
      (fun held op hl hf => by
        have := settle_holds hw (op :: held) (by simp; omega) (by simpa using hf)
        rwa [List.reverse_cons] at this)
      hs hl (R.fit hr' hf)
    simp only []
    generalize below.consume hold held s = result at key
    obtain ⟨outcome, s'⟩ := result
    cases outcome with
    | done given =>
      obtain ⟨hs', hd, hk⟩ := key
      refine ⟨hs', by simpa using hd, ?_, by simp⟩
      simpa using R.trans hr' hk
    | dry held' =>
      obtain ⟨hs', -, hc, hk⟩ := key
      refine ⟨hs', by simp [Buffers.flush], ?_, ?_⟩
      · simpa [Buffers.flush, hc] using R.trans hr' hk
      · simp [Buffers.flush, hc]
    | failed fault held' => exact key

end Coalesce

namespace Compact

private theorem rel_reduce
    (hw : ∀ a b op, R.Fit [a, b] → a.combine? b = some op → R.Rel [a, b] [op]) (held : List Op)
    (hf : R.Fit held.reverse) : R.Rel held.reverse (reduce held).reverse := by
  fun_induction reduce held with
  | case1 next prev older op hm ih =>
    have hf' : R.Fit (older.reverse ++ [prev, next] ++ []) := by simpa using hf
    have hr := rel_join (hw _ _ _ · hm) hf'
    have hr' : R.Rel (next :: prev :: older).reverse (op :: older).reverse := by simpa using hr
    exact R.trans hr' (ih (R.fit hr' hf))
  | case2 => exact R.refl _
  | case3 => exact R.refl _

theorem release_holds (held : List Op) :
    (release held).Holds (fun held' => held' = held) (fun given => given = held ∧ held ≠ []) := by
  unfold release
  by_cases h : window < held.length
  · rw [if_pos h]
    refine ⟨rfl, ?_⟩
    rintro rfl
    simp at h
  · rw [if_neg h]
    rfl

theorem hold_holds
    (hw : ∀ a b op, R.Fit [a, b] → a.combine? b = some op → R.Rel [a, b] [op]) {held : List Op}
    {op : Op}
    (hf : R.Fit (held.reverse ++ [op])) :
    (hold held op).Holds (fun held' => True ∧ R.Rel (held.reverse ++ [op]) held'.reverse)
      (fun given => given ≠ [] ∧ R.Rel (held.reverse ++ [op]) given.reverse) := by
  have hr := rel_reduce hw (op :: held) (by simpa using hf)
  rw [List.reverse_cons] at hr
  refine (release_holds (reduce (op :: held))).imp ?_ ?_
  · rintro _ rfl
    exact ⟨trivial, hr⟩
  · rintro _ ⟨rfl, hne⟩
    exact ⟨hne, hr⟩

theorem refills (L : below.Ledger R Fails)
    (hw : ∀ a b op, R.Fit [a, b] → a.combine? b = some op → R.Rel [a, b] [op])
    {pending : List Op} {s : σ} (hs : L.Sound s) (hf : R.Fit (pending ++ L.content s)) :
    L.Refills (fun _ _ => True) (pending ++ L.content s) (shift below ⟨[], pending⟩ s) := by
  have hrel := release_holds pending.reverse
  unfold shift
  cases hm : release pending.reverse with
  | done given =>
    rw [hm] at hrel
    obtain ⟨-, hne⟩ := hrel
    cases pending with
    | nil => exact absurd rfl hne
    | cons op pending =>
      exact ⟨hs, trivial, by simpa [Buffers.shiftReady] using R.refl _,
        by simp [Buffers.shiftReady]⟩
  | more held =>
    rw [hm] at hrel
    obtain rfl : held = pending.reverse := hrel
    have key := L.consume hold List.reverse List.reverse (fun _ => True) (fun given => given ≠ [])
      (fun held op _ hf => hold_holds hw hf) (a := pending.reverse) hs trivial
      (by simpa using hf)
    simp only []
    generalize below.consume hold pending.reverse s = result at key
    obtain ⟨outcome, s'⟩ := result
    simp only [List.reverse_reverse] at key
    cases outcome with
    | done given =>
      obtain ⟨hs', hd, hk⟩ := key
      cases hg : given.reverse with
      | nil => exact absurd (by simpa using hg) hd
      | cons op pending' =>
        rw [hg] at hk
        exact ⟨hs', trivial, by simpa [Buffers.shiftReady, hg] using hk,
          by simp [Buffers.shiftReady, hg]⟩
    | dry held' =>
      obtain ⟨hs', -, hc, hk⟩ := key
      refine ⟨hs', trivial, ?_, ?_⟩
      · simpa [Buffers.flush, hc] using hk
      · simp [Buffers.flush, hc]
    | failed fault held' => exact key

end Compact

end BytePatch
