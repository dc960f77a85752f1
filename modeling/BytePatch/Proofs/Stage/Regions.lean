import BytePatch.Proofs.Queue.Ledger
import BytePatch.Proofs.Stage.Pieces
import BytePatch.Stage.Unchunk

/-! Refills of the two layers that look at whole neighbours: deletes and inserts cut into pieces,
and the ops between two copies gathered into few. -/
namespace BytePatch

variable {σ : Type} {below : Feed σ} {R : Refinement} {Fails : Fault → Prop}

namespace Chunk

/-- What a refill does unless it fails: it cuts the first op, together with the one after it if
that replaces it, if there is any op left. -/
def Takes (L : below.Ledger R Fails) (size : Nat) (xs : Script) :
    Except Fault Unit × Buffers × σ → Prop
  | (.error fault, _, _) => Fails fault
  | (.ok (), buffers, s) => L.Sound s ∧
    (buffers = .empty ∧ L.content s = [] ∧ R.Rel xs [] ∨
      (∃ op, buffers.ready = pieces size op ∧
        (∀ next ∈ (buffers.pending ++ L.content s).head?, ¬ replaces op next) ∧
        R.Rel xs (op :: (buffers.pending ++ L.content s))) ∨
      ∃ a b, replaces a b ∧ buffers.ready = interleave (pieces size a) (pieces size b) ∧
        R.Rel xs (a :: b :: (buffers.pending ++ L.content s)))

theorem takes (L : below.Ledger R Fails) (size : Nat) (pending : List Op) {s : σ} (hs : L.Sound s)
    (hf : R.Fit (pending ++ L.content s)) :
    Takes L size (pending ++ L.content s) (shift size below ⟨[], pending⟩ s) := by
  have h1 := L.require_one pending hs hf
  unfold shift
  generalize below.require 1 pending s = result at h1
  split
  · exact h1
  · next enough s1 =>
    obtain ⟨hs1, hc1, hr1⟩ := h1
    exact ⟨hs1, .inl ⟨rfl, hc1, hr1⟩⟩
  · next enough run rest s1 =>
    obtain ⟨hs1, hr1⟩ := h1
    have hpieces : [Op.copy run] = pieces size (.copy run) := by simp [pieces]
    exact ⟨hs1, .inr (.inl ⟨.copy run, hpieces, fun next _ => by simp [replaces, Op.kind], hr1⟩)⟩
  · next enough first rest s1 _ =>
    obtain ⟨hs1, hr1⟩ := h1
    have h2 := L.require_one rest hs1 (R.tail (R.fit hr1 hf))
    generalize below.require 1 rest s1 = result at h2
    split
    · exact h2
    · next enough s2 =>
      obtain ⟨hs2, hc2, hr2⟩ := h2
      have hr := R.trans hr1 (R.prepend [first] hr2)
      exact ⟨hs2, .inr (.inl ⟨first, rfl, by simp [hc2], by simpa [hc2] using hr⟩)⟩
    · next enough second rest' s2 =>
      obtain ⟨hs2, hr2⟩ := h2
      have hr := R.trans hr1 (R.prepend [first] hr2)
      by_cases hp : replaces first second
      · rw [if_pos hp]
        exact ⟨hs2, .inr (.inr ⟨first, second, hp, rfl, hr⟩)⟩
      · rw [if_neg hp]
        exact ⟨hs2, .inr (.inl ⟨first, rfl, by simpa using hp, hr⟩)⟩

theorem refills (L : below.Ledger R Fails) {size : Nat}
    (hcut : ∀ op, R.Fit [op] → R.Rel [op] (pieces size op))
    (hboth : ∀ a b, replaces a b → R.Fit [a, b] →
      R.Rel [a, b] (interleave (pieces size a) (pieces size b)))
    {pending : List Op} {s : σ} (hs : L.Sound s) (hf : R.Fit (pending ++ L.content s)) :
    L.Refills (fun _ _ => True) (pending ++ L.content s) (shift size below ⟨[], pending⟩ s) := by
  have key := takes L size pending hs hf
  generalize shift size below ⟨[], pending⟩ s = result at key
  obtain ⟨fault | _, ⟨ready, pending'⟩, s'⟩ := result
  · exact key
  obtain ⟨hs', ⟨hempty, hc, hr⟩ | ⟨op, rfl, -, hr⟩ | ⟨a, b, hp, rfl, hr⟩⟩ := key
  · cases hempty
    exact ⟨hs', trivial, by simpa [hc] using hr, fun _ => ⟨rfl, hc⟩⟩
  · have hone := hcut op (R.head (R.fit hr hf))
    exact ⟨hs', trivial, R.trans hr (R.append hone (R.refl _)),
      fun hn => absurd hn (pieces_ne_nil size op)⟩
  · have hf' : R.Fit ([a, b] ++ (pending' ++ L.content s')) := R.fit hr hf
    have hpair := hboth a b hp (R.left hf')
    exact ⟨hs', trivial, R.trans hr (R.append hpair (R.refl _)),
      fun hn => absurd hn (interleave_ne_nil (pieces_ne_nil size a) _)⟩

end Chunk

theorem Script.grouped_ne_nil {ops : Script} (h : ops ≠ []) : ops.grouped ≠ [] := by
  cases ops with
  | nil => exact absurd rfl h
  | cons op ops =>
    rw [Script.grouped, List.foldr_cons, ← Script.grouped]
    unfold Script.prepend
    split
    · exact List.cons_ne_nil _ _
    · split <;> exact List.cons_ne_nil _ _

namespace Unchunk

theorem regroup_ne_nil (first : Op) (rest : Script) :
    regroup first.kind (first :: rest) ≠ [] := by
  have h : Script.grouped ((first :: rest).filter (·.kind = first.kind)) ≠ [] :=
    Script.grouped_ne_nil (by simp)
  simp only [regroup, ne_eq, List.append_eq_nil_iff, not_and]
  exact fun hn => absurd hn h

/-- What has been gathered of a region begins with its first op and stays within it. -/
def Region (first : Op) (taken : List Op) : Prop :=
  ∃ rest, taken.reverse = first :: rest ∧ ∀ op ∈ rest, sameRegion first op

theorem gather_holds {first : Op} {taken : List Op} (h : Region first taken) (op : Op)
    (R : Refinement) : (gather first taken op).Holds
      (fun taken' => Region first taken' ∧ R.Rel (taken.reverse ++ [op]) taken'.reverse)
      (fun given => (Region first given.1 ∧ ¬ sameRegion first given.2) ∧
        R.Rel (taken.reverse ++ [op]) (given.1.reverse ++ [given.2])) := by
  obtain ⟨rest, ht, hr⟩ := h
  unfold gather
  by_cases hs : sameRegion first op
  · rw [if_pos hs]
    refine ⟨⟨rest ++ [op], by simp [ht], ?_⟩, by simpa using R.refl _⟩
    intro other ho
    rcases List.mem_append.1 ho with ho | ho
    · exact hr other ho
    · rwa [List.mem_singleton.1 ho]
  · rw [if_neg hs]
    exact ⟨⟨⟨rest, ht, hr⟩, hs⟩, R.refl _⟩

/-- What a refill does unless it fails: it gathers one whole region, the first one, if there is any
op left. -/
def Takes (L : below.Ledger R Fails) (xs : Script) : Except Fault Unit × Buffers × σ → Prop
  | (.error fault, _, _) => Fails fault
  | (.ok (), buffers, s) => L.Sound s ∧
    (buffers = .empty ∧ L.content s = [] ∧ R.Rel xs [] ∨
      ∃ first region, buffers.ready = regroup first.kind (first :: region) ∧
        (∀ op ∈ region, sameRegion first op) ∧
        (∀ op ∈ (buffers.pending ++ L.content s).head?, ¬ sameRegion first op) ∧
        R.Rel xs (first :: region ++ (buffers.pending ++ L.content s)))

theorem takes (L : below.Ledger R Fails) (pending : List Op) {s : σ} (hs : L.Sound s)
    (hf : R.Fit (pending ++ L.content s)) :
    Takes L (pending ++ L.content s) (shift below ⟨[], pending⟩ s) := by
  have h1 := L.require_one pending hs hf
  unfold shift
  generalize below.require 1 pending s = result at h1
  split
  · exact h1
  · next enough s1 =>
    obtain ⟨hs1, hc1, hr1⟩ := h1
    exact ⟨hs1, .inl ⟨rfl, hc1, hr1⟩⟩
  · next enough first rest s1 =>
    obtain ⟨hs1, hr1⟩ := h1
    have hf1 := R.fit hr1 hf
    have hsplit := rest.takeWhile_append_dropWhile (p := sameRegion first)
    have hsame : ∀ op ∈ rest.takeWhile (sameRegion first), sameRegion first op :=
      List.all_eq_true.1 List.all_takeWhile
    have hleft := List.head?_dropWhile_not (sameRegion first) rest
    rw [← hsplit, List.append_assoc, ← List.cons_append] at hr1 hf1
    generalize rest.takeWhile (sameRegion first) = region at hr1 hf1 hsame
    split
    · next op left hd =>
      rw [hd] at hr1 hleft
      exact ⟨hs1, .inr ⟨first, region, rfl, hsame, by simpa using hleft, hr1⟩⟩
    · next hd =>
      rw [hd] at hr1 hf1
      -- Nothing of another region is pending, so the end is searched below.
      have key := L.consume (gather first) List.reverse
        (fun given => given.1.reverse ++ [given.2]) (Region first)
        (fun given => Region first given.1 ∧ ¬ sameRegion first given.2)
        (fun taken op ht _ => gather_holds ht op R) (a := (first :: region).reverse) hs1
        ⟨region, by simp, hsame⟩ (by simpa using hf1)
      dsimp only
      generalize below.consume (gather first) (first :: region).reverse s1 = result at key
      simp only [List.nil_append, List.reverse_reverse] at hr1 hf1 key
      split
      · next taken op s2 =>
        obtain ⟨hs2, ⟨⟨others, ht, ho⟩, hother⟩, hk⟩ := key
        have hr2 := R.trans hr1 hk
        rw [ht, List.append_assoc] at hr2
        rw [ht]
        exact ⟨hs2, .inr ⟨first, others, rfl, ho, by simpa using hother, hr2⟩⟩
      · next taken s2 =>
        obtain ⟨hs2, ⟨others, ht, ho⟩, hc, hk⟩ := key
        have hr2 := R.trans hr1 hk
        rw [ht] at hr2 ⊢
        exact ⟨hs2, .inr ⟨first, others, rfl, ho, by simp [hc], by simpa [hc] using hr2⟩⟩
      · exact key

theorem refills (L : below.Ledger R Fails)
    (hw : ∀ first rest, (∀ op ∈ rest, sameRegion first op) → R.Fit (first :: rest) →
      R.Rel (first :: rest) (regroup first.kind (first :: rest)))
    {pending : List Op} {s : σ} (hs : L.Sound s) (hf : R.Fit (pending ++ L.content s)) :
    L.Refills (fun _ _ => True) (pending ++ L.content s) (shift below ⟨[], pending⟩ s) := by
  have key := takes L pending hs hf
  generalize shift below ⟨[], pending⟩ s = result at key
  obtain ⟨fault | _, ⟨ready, pending'⟩, s'⟩ := result
  · exact key
  obtain ⟨hs', ⟨hempty, hc, hr⟩ | ⟨first, region, rfl, hsame, -, hr⟩⟩ := key
  · cases hempty
    exact ⟨hs', trivial, by simpa [hc] using hr, fun _ => ⟨rfl, hc⟩⟩
  · have hregion := hw first region hsame (R.left (R.fit hr hf))
    exact ⟨hs', trivial, R.trans hr (R.append hregion (R.refl _)),
      fun hn => absurd hn (regroup_ne_nil first region)⟩

end Unchunk

end BytePatch
