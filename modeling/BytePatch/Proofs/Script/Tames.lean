import BytePatch.Proofs.Lattice.Scripts
import BytePatch.Proofs.Script.Making

/-! Scripts that are no heavier than those they were made of, without an empty op if those had none,
and made of them without a check. Every rule by which a layer goes keeps to this, the ones that take
scripts back as well. -/
namespace BytePatch

open Fields (Made)

namespace Script

/-- The second script is no heavier than the first, none of its ops is empty unless one of the first
is, and their records are made of those of the first. -/
structure Tames (xs ys : Script) : Prop where
  pos : (∀ op ∈ xs, 0 < op.run) → ∀ op ∈ ys, 0 < op.run
  weight_le : weight ys ≤ weight xs
  made {Given : Fields → Prop} : weight xs < UInt64.size → (∀ op ∈ xs, Made Given op.fields) →
    ∀ op ∈ ys, Made Given op.fields

namespace Tames

theorem refl (xs : Script) : Tames xs xs := ⟨id, Nat.le_refl _, fun _ => id⟩

theorem trans {xs ys zs : Script} (h : Tames xs ys) (h' : Tames ys zs) : Tames xs zs where
  pos hx := h'.pos (h.pos hx)
  weight_le := Nat.le_trans h'.weight_le h.weight_le
  made hw hx := h'.made (Nat.lt_of_le_of_lt h.weight_le hw) (h.made hw hx)

theorem append {xs xs' ys ys' : Script} (hx : Tames xs xs') (hy : Tames ys ys') :
    Tames (xs ++ ys) (xs' ++ ys') where
  pos := (Refinement.every fun op => 0 < op.run).append hx.pos hy.pos
  weight_le := by
    rw [weight_append, weight_append]
    exact Nat.add_le_add hx.weight_le hy.weight_le
  made {Given} hw := by
    rw [weight_append] at hw
    have hxw : weight xs < UInt64.size := Nat.lt_of_le_of_lt (Nat.le_add_right _ _) hw
    have hyw : weight ys < UInt64.size := Nat.lt_of_le_of_lt (Nat.le_add_left _ _) hw
    exact (Refinement.every fun op => Made Given op.fields).append (hx.made hxw) (hy.made hyw)

theorem prepend (xs : Script) {ys ys' : Script} (h : Tames ys ys') : Tames (xs ++ ys) (xs ++ ys') :=
  (refl xs).append h

theorem postpend {xs xs' : Script} (h : Tames xs xs') (ys : Script) : Tames (xs ++ ys) (xs' ++ ys) :=
  h.append (refl ys)

theorem of_sublist {xs ys : Script} (h : ys.Sublist xs) : Tames xs ys where
  pos hx op hop := hx op (h.subset hop)
  weight_le := by
    induction h with
    | slnil => exact Nat.le_refl _
    | cons op _ ih => exact Nat.le_trans ih (by simp)
    | cons_cons op _ ih => simpa using ih
  made _ hx op hop := hx op (h.subset hop)

theorem single {xs : Script} {op : Op} (hpos : (∀ x ∈ xs, 0 < x.run) → 0 < op.run)
    (hw : op.weight ≤ weight xs)
    (hmade : ∀ {Given : Fields → Prop}, weight xs < UInt64.size →
      (∀ x ∈ xs, Made Given x.fields) → Made Given op.fields) : Tames xs [op] where
  pos hx := by simpa using hpos hx
  weight_le := by simpa using hw
  made hlt hx := by simpa using hmade hlt hx

end Tames

/-- Ops that are not empty weigh what they are long. -/
theorem weight_eq_totalRun {ops : Script} (h : ∀ op ∈ ops, 0 < op.run) :
    weight ops = ops.totalRun := by
  induction ops with
  | nil => rfl
  | cons op ops ih =>
    have hop : op.weight = op.run := Nat.max_eq_right (h op List.mem_cons_self)
    rw [weight_cons, hop, ih fun op hm => h op (List.mem_cons_of_mem _ hm)]
    rfl

/-- Scripts that are no heavier have no longer runs, where no op is empty. -/
theorem Tames.totalRun_le {xs ys : Script} (h : Tames xs ys) (hx : ∀ op ∈ xs, 0 < op.run) :
    ys.totalRun ≤ xs.totalRun := calc
  totalRun ys = weight ys := (weight_eq_totalRun (h.pos hx)).symm
  _ ≤ weight xs := h.weight_le
  _ = xs.totalRun := weight_eq_totalRun hx

theorem Tames.run_le {xs ys : Script} (h : Tames xs ys) (hx : ∀ op ∈ xs, 0 < op.run) {op : Op}
    (hop : op ∈ ys) : op.run ≤ xs.totalRun :=
  Nat.le_trans (le_sumOf Op.run hop) (h.totalRun_le hx)

private theorem made_pair {Given : Fields → Prop} {a b : Op} (hw : weight [a, b] < UInt64.size)
    (h : ∀ op ∈ [a, b], Made Given op.fields) :
    Made Given a.fields ∧ Made Given b.fields ∧ a.fields.run + b.fields.run < UInt64.size := by
  simp only [weight_cons, weight_nil, Op.weight] at hw
  exact ⟨h a (by simp), h b (by simp), show a.run + b.run < UInt64.size by omega⟩

theorem tames_merge {a b op : Op} (h : a.merge? b = some op) : Tames [a, b] [op] := by
  refine .single (fun hx => ?_) (by simpa using Op.weight_merge?_le h) fun hw hx => ?_
  · rw [Op.run_of_merge? h]
    exact Nat.add_pos_left (hx a (by simp)) _
  · obtain ⟨ha, hb, hsum⟩ := made_pair hw hx
    exact .merged ha hb hsum (by rw [Op.merge?_fields, h]; rfl)

private theorem pos_combine {a b op : Op} (ha : 0 < a.run) (h : a.combine? b = some op) :
    0 < op.run := by
  unfold Op.combine? at h
  split at h
  · split at h <;> cases h
    exact ha
  · split at h <;> cases h
    exact ha
  · rw [Op.run_of_merge? h]
    exact Nat.add_pos_left ha _

theorem tames_combine {a b op : Op} (h : a.combine? b = some op) : Tames [a, b] [op] := by
  refine .single (fun hx => pos_combine (hx a (by simp)) h)
    (by simpa using Op.weight_combine?_le h) fun hw hx => ?_
  obtain ⟨ha, hb, hsum⟩ := made_pair hw hx
  exact .combined ha hb hsum (by rw [Op.combine?_fields, h]; rfl)

theorem tames_prepend (op : Op) (ops : Script) : Tames (op :: ops) (prepend op ops) := by
  cases ops with
  | nil => exact Tames.refl _
  | cons next rest =>
    cases hm : op.merge? next with
    | none =>
      rw [prepend, hm]
      exact Tames.refl _
    | some both =>
      rw [prepend, hm]
      exact (tames_merge hm).postpend rest

theorem tames_grouped (ops : Script) : Tames ops (grouped ops) := by
  induction ops with
  | nil => exact Tames.refl _
  | cons op ops ih => exact (ih.prepend [op]).trans (tames_prepend op _)

theorem tames_pieces {size : Nat} (hs : 0 < size) (op : Op) : Tames [op] (Chunk.pieces size op) where
  pos hx piece hp := (Chunk.piece_of_mem hp).pos (hx op List.mem_cons_self)
  weight_le := by simpa using Chunk.weight_pieces_le size op
  made _ hx piece hp := by
    refine .piece hs (hx op List.mem_cons_self) ?_
    rw [Op.split_fields hs]
    exact List.mem_map_of_mem hp

theorem tames_interleave {size : Nat} (hs : 0 < size) (a b : Op) :
    Tames [a, b] (Chunk.interleave (Chunk.pieces size a) (Chunk.pieces size b)) := by
  refine ((tames_pieces hs a).append (tames_pieces hs b)).trans ⟨fun hx op hop => ?_, ?_,
    fun _ hx op hop => ?_⟩
  · exact hx op (List.mem_append.2 (Chunk.mem_interleave hop))
  · rw [Chunk.weight_interleave, weight_append]
  · exact hx op (List.mem_append.2 (Chunk.mem_interleave hop))

/-- Each sort of ops is gathered apart from the other. -/
theorem tames_regroup (lead : Kind) (region : Script) : Tames region (Unchunk.regroup lead region) := by
  have hsplit : Tames region (region.filter (·.kind = lead) ++ region.filter (·.kind ≠ lead)) := by
    have hmem : ∀ op ∈ region.filter (·.kind = lead) ++ region.filter (·.kind ≠ lead),
        op ∈ region := by
      intro op hop
      rcases List.mem_append.1 hop with hop | hop <;> exact (List.mem_filter.1 hop).1
    refine ⟨fun hx op hop => hx op (hmem op hop), ?_, fun _ hx op hop => hx op (hmem op hop)⟩
    have hweight := Unchunk.weight_filter_add (·.kind = lead) region
    simp only [ne_eq, decide_not, weight_append] at hweight ⊢
    exact Nat.le_of_eq hweight
  exact hsplit.trans ((tames_grouped _).append (tames_grouped _))

theorem tames_forget (op : Op) : Tames [op] [op.forget] := by
  refine .single (fun hx => ?_) (by simp [Op.weight]) fun _ hx => ?_
  · rw [Op.run_forget]
    exact hx op List.mem_cons_self
  · rw [← Op.forget_fields]
    exact .forgotten (hx op List.mem_cons_self)

theorem tames_undo {op undone : Op} (h : op.undo = .ok undone) : Tames [op] [undone] := by
  refine .single (fun hx => ?_) (by simp [Op.weight_undo h]) fun _ hx => ?_
  · have hop : 0 < op.run := hx op List.mem_cons_self
    cases op <;> cases h <;> exact hop
  · exact .undone (hx op List.mem_cons_self) (by rw [Op.undo_fields, h]; rfl)

private theorem insert_of_restored {run : Nat} {op : Op} {orig rest : Reader}
    (h : Op.rewind.restored orig run = (.ok op, rest)) : ∃ bytes, op = .insert bytes ∧
      bytes.length = run := by
  unfold Op.rewind.restored at h
  dsimp only at h
  split at h
  · cases h
  · split at h
    · next hlength =>
      cases h
      exact ⟨_, rfl, hlength⟩
    · cases h

private theorem tames_restored {op undone : Op} {orig rest : Reader} (hkind : op.kind = .delete)
    (h : Op.rewind.restored orig op.run = (.ok undone, rest)) : Tames [op] [undone] := by
  obtain ⟨bytes, rfl, hlength⟩ := insert_of_restored h
  refine .single (fun hx => ?_) (by simp [Op.weight, Op.run, hlength]) fun _ hx => ?_
  · rw [Op.run, hlength]
    exact hx op List.mem_cons_self
  · exact .restored (hx op List.mem_cons_self) hkind hlength

theorem tames_rewind {op undone : Op} {orig rest : Reader}
    (h : op.rewind orig = (.ok undone, rest)) : Tames [op] [undone] := by
  cases op with
  | copy run =>
    simp only [Op.rewind] at h
    split at h <;> cases h
    exact Tames.refl _
  | skip run => exact tames_restored rfl h
  | delete bytes => exact tames_restored rfl h
  | insert bytes =>
    cases h
    exact tames_undo rfl

theorem tames_pair {a b : Op} {orig target : Bytes} (h : a.pair? b = some (orig, target)) :
    Tames [a, b] [.delete orig, .insert target] := by
  cases a <;> cases b <;> simp [Op.pair?] at h <;> obtain ⟨rfl, rfl⟩ := h
  · exact Tames.refl _
  · exact ⟨fun hx => by simpa [and_comm] using hx, by simp [Nat.add_comm],
      fun _ hx => by simpa [and_comm] using hx⟩

theorem tames_align {aligner : Aligner} {orig target : Bytes} {script : Script}
    (h : aligner.align orig target = .ok script) :
    Tames [.delete orig, .insert target] script := by
  have hpair : orig.length + target.length ≤ weight [.delete orig, .insert target] := by
    simp only [weight_cons, weight_nil, Op.weight, Op.run]
    omega
  obtain ⟨-, rfl⟩ := Aligner.align_eq_ok h
  -- The steps of the path stand for the pair, whatever they cross.
  have hsteps : Tames [.delete orig, .insert target]
      ((aligner.strategy.trail orig target).reverse.map Step.op) := by
    refine ⟨fun _ op hop => ?_, ?_, fun _ _ op hop => ?_⟩
    · obtain ⟨step, -, rfl⟩ := List.mem_map.1 hop
      cases step <;> exact Nat.one_pos
    · rw [Path.weight_ops, List.length_reverse]
      exact Nat.le_trans (aligner.strategy.length_trail_le orig target) hpair
    · obtain ⟨step, -, rfl⟩ := List.mem_map.1 hop
      exact .step step
  have hscript := hsteps.trans (tames_grouped _)
  rwa [← Path.scriptBack_eq] at hscript

end Script

/-- Tamer scripts may stand for others, whatever those are. -/
def Refinement.tame : Refinement where
  Fit _ := True
  Rel := Script.Tames
  refl := Script.Tames.refl
  trans := Script.Tames.trans
  append := Script.Tames.append
  fit _ _ := trivial
  left _ := trivial
  right _ := trivial

@[simp] theorem Refinement.tame_rel {xs ys : Script} :
    Refinement.tame.Rel xs ys ↔ Script.Tames xs ys := Iff.rfl

end BytePatch
