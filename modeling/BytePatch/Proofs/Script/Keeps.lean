import BytePatch.Proofs.Queue.Ledger
import BytePatch.Proofs.Script.Edits
import BytePatch.Proofs.Stage.Pieces
import BytePatch.Stage.Compact
import BytePatch.Stage.Unchunk

/-! Scripts that edit at least the strings another one edits, and the rules that make such a
script of a few neighbours: joining, cutting, regrouping and forgetting. -/
namespace BytePatch

/-- What may be assumed of the ops of a script: how long they are at most, and whether deletes may
have forgotten their bytes. -/
structure Terms where
  limit? : Option Nat
  skips : Bool

namespace Terms

structure Allows (terms : Terms) (op : Op) : Prop where
  pos : 0 < op.run
  short : ∀ limit, terms.limit? = some limit → op.run ≤ limit
  remembers : terms.skips = false → ∀ run, op ≠ .skip run

def Fits (terms : Terms) (ops : Script) : Prop := ∀ op ∈ ops, terms.Allows op

/-- The second script edits all the strings the first one edits, on the same terms. -/
structure Keeps (terms : Terms) (xs ys : Script) : Prop where
  allows : terms.Fits xs → terms.Fits ys
  edits {src dst : Bytes} : Script.Edits xs src dst → Script.Edits ys src dst

variable {terms : Terms}

theorem Keeps.refl (xs : Script) : terms.Keeps xs xs := ⟨id, id⟩

theorem Keeps.trans {xs ys zs : Script} (h : terms.Keeps xs ys) (h' : terms.Keeps ys zs) :
    terms.Keeps xs zs :=
  ⟨fun hx => h'.allows (h.allows hx), fun he => h'.edits (h.edits he)⟩

theorem Keeps.append {xs xs' ys ys' : Script} (hx : terms.Keeps xs xs') (hy : terms.Keeps ys ys') :
    terms.Keeps (xs ++ ys) (xs' ++ ys') where
  allows h op hop := by
    rcases List.mem_append.1 hop with hop | hop
    · exact hx.allows (fun op hop => h op (List.mem_append_left _ hop)) op hop
    · exact hy.allows (fun op hop => h op (List.mem_append_right _ hop)) op hop
  edits h := by
    obtain ⟨a, b, c, d, rfl, rfl, hx', hy'⟩ := Script.edits_append_iff.1 h
    exact (hx.edits hx').append (hy.edits hy')

theorem eq_nil_of_keeps_nil {ops : Script} (h : terms.Keeps [] ops) : ops = [] := by
  cases ops with
  | nil => rfl
  | cons op ops =>
    have hpos := (h.allows (List.forall_mem_nil _) op List.mem_cons_self).pos
    have hrun : op.run ≤ _ := (h.edits .nil).run_le List.mem_cons_self
    simp only [List.length_nil] at hrun
    omega

/-- Scripts that keep the edits of others may stand for them. -/
def refinement (terms : Terms) : Refinement where
  Fit := terms.Fits
  Rel := terms.Keeps
  refl := Keeps.refl
  trans := Keeps.trans
  append := Keeps.append
  fit := Keeps.allows
  left h op hop := h op (List.mem_append_left _ hop)
  right h op hop := h op (List.mem_append_right _ hop)

/-- Whatever is kept on some terms is kept on wider ones, for scripts that the first ones fit. -/
theorem Keeps.weaken {terms' : Terms} (hallow : ∀ op, terms.Allows op → terms'.Allows op)
    {xs ys : Script} (hf : terms.Fits xs) (h : terms.Keeps xs ys) : terms'.Keeps xs ys :=
  ⟨fun _ op hop => hallow op (h.allows hf op hop), h.edits⟩

section Joining

private theorem keeps_join (hl : terms.limit? = none) {a b op : Op}
    (hrun : 0 < a.run → 0 < b.run → 0 < op.run)
    (hskip : ∀ run, op = .skip run → (∃ run, a = .skip run) ∨ ∃ run, b = .skip run)
    (hedit : ∀ {src dst src' dst'}, a.Edits src dst → b.Edits src' dst' →
      op.Edits (src ++ src') (dst ++ dst')) :
    terms.Keeps [a, b] [op] where
  allows h other hother := by
    obtain rfl := List.mem_singleton.1 hother
    have ha := h a (by simp)
    have hb := h b (by simp)
    refine ⟨hrun ha.pos hb.pos, fun limit hlim => by simp [hl] at hlim, ?_⟩
    rintro hs run rfl
    rcases hskip run rfl with ⟨run', rfl⟩ | ⟨run', rfl⟩
    · exact ha.remembers hs run' rfl
    · exact hb.remembers hs run' rfl
  edits h := by
    obtain ⟨src, dst, src', dst', rfl, rfl, ha, hb⟩ := Script.edits_cons_iff.1 h
    exact Script.edits_singleton_iff.2 (hedit ha (Script.edits_singleton_iff.1 hb))

theorem keeps_merge (hl : terms.limit? = none) {a b op : Op} (h : a.merge? b = some op) :
    terms.Keeps [a, b] [op] := by
  refine keeps_join hl ?_ ?_ ?_
  · have := Op.run_of_merge? h
    omega
  · rintro run rfl
    cases a <;> cases b <;> simp_all [Op.merge?]
  · intro src dst src' dst' ha hb
    cases a <;> cases b <;> cases h <;> obtain ⟨h1, h2⟩ := ha <;> obtain ⟨h3, h4⟩ := hb <;>
      subst h1 h2 h3 h4 <;> simp [Op.Edits]

theorem keeps_combine (hl : terms.limit? = none) {a b op : Op} (h : a.combine? b = some op) :
    terms.Keeps [a, b] [op] := by
  unfold Op.combine? at h
  split at h
  · next xs ys =>
    split at h <;> cases h
    next heq =>
    subst heq
    refine keeps_join hl (fun h _ => h) nofun ?_
    rintro _ _ _ _ ⟨rfl, rfl⟩ ⟨rfl, rfl⟩
    simp [Op.Edits]
  · next xs ys =>
    split at h <;> cases h
    next heq =>
    subst heq
    refine keeps_join hl (fun h _ => h) nofun ?_
    rintro _ _ _ _ ⟨rfl, rfl⟩ ⟨rfl, rfl⟩
    simp [Op.Edits]
  · exact keeps_merge hl h

private theorem keeps_prepend (hl : terms.limit? = none) (op : Op) (ops : Script) :
    terms.Keeps (op :: ops) (ops.prepend op) := by
  cases ops with
  | nil => exact Keeps.refl _
  | cons next rest =>
    cases hm : op.merge? next with
    | none => simpa [Script.prepend, hm] using Keeps.refl _
    | some both =>
      simpa [Script.prepend, hm] using (keeps_merge hl hm).append (Keeps.refl rest)

theorem keeps_grouped (hl : terms.limit? = none) (ops : Script) :
    terms.Keeps ops ops.grouped := by
  induction ops with
  | nil => exact Keeps.refl _
  | cons op ops ih =>
    exact (Keeps.append (Keeps.refl [op]) ih).trans (keeps_prepend hl op (Script.grouped ops))

end Joining

section Regions

private theorem edits_region_iff {ops : Script} (h : ∀ op ∈ ops, op.kind ≠ .copy)
    {src dst : Bytes} : Script.Edits ops src dst ↔
      Script.Edits (ops.filter (·.kind = .delete)) src [] ∧
        Script.Edits (ops.filter (·.kind = .insert)) [] dst := by
  induction ops generalizing src dst with
  | nil => simp
  | cons op ops ih =>
    have ih := @ih fun op hop => h op (List.mem_cons_of_mem _ hop)
    have hop := h op List.mem_cons_self
    rw [Script.edits_cons_iff]
    cases op with
    | copy run => exact absurd rfl hop
    | skip run | delete bytes =>
      rw [List.filter_cons_of_pos (by simp [Op.kind]), List.filter_cons_of_neg (by simp [Op.kind]),
        Script.edits_cons_iff]
      constructor
      · rintro ⟨a, b, src', dst', rfl, rfl, ⟨ha, rfl⟩, hs⟩
        obtain ⟨hd, hi⟩ := ih.1 hs
        exact ⟨⟨a, [], src', [], rfl, rfl, ⟨ha, rfl⟩, hd⟩, hi⟩
      · rintro ⟨⟨a, b, src', dst', rfl, hb, ⟨ha, rfl⟩, hd⟩, hi⟩
        obtain rfl : dst' = [] := by simpa using hb.symm
        exact ⟨a, [], src', dst, rfl, rfl, ⟨ha, rfl⟩, ih.2 ⟨hd, hi⟩⟩
    | insert added =>
      rw [List.filter_cons_of_neg (by simp [Op.kind]), List.filter_cons_of_pos (by simp [Op.kind])]
      rw [@Script.edits_cons_iff (.insert added)]
      constructor
      · rintro ⟨a, b, src', dst', rfl, rfl, ⟨rfl, rfl⟩, hs⟩
        obtain ⟨hd, hi⟩ := ih.1 hs
        exact ⟨hd, [], b, [], dst', rfl, rfl, ⟨rfl, rfl⟩, hi⟩
      · rintro ⟨hd, a, b, src', dst', ha, rfl, ⟨rfl, rfl⟩, hi⟩
        obtain rfl : src' = [] := by simpa using ha.symm
        exact ⟨[], b, src, dst', rfl, rfl, ⟨rfl, rfl⟩, ih.2 ⟨hd, hi⟩⟩

private theorem keeps_region {xs ys : Script} (hx : ∀ op ∈ xs, op.kind ≠ .copy)
    (hy : ∀ op ∈ ys, op.kind ≠ .copy)
    (hd : ys.filter (·.kind = .delete) = xs.filter (·.kind = .delete))
    (hi : ys.filter (·.kind = .insert) = xs.filter (·.kind = .insert)) : terms.Keeps xs ys where
  allows h op hop := by
    have hk := hy op hop
    have : op.kind = .delete ∨ op.kind = .insert := by cases op <;> simp [Op.kind] at hk ⊢
    rcases this with hk | hk
    · have hm : op ∈ ys.filter (·.kind = .delete) := List.mem_filter.2 ⟨hop, by simpa using hk⟩
      rw [hd] at hm
      exact h op (List.mem_filter.1 hm).1
    · have hm : op ∈ ys.filter (·.kind = .insert) := List.mem_filter.2 ⟨hop, by simpa using hk⟩
      rw [hi] at hm
      exact h op (List.mem_filter.1 hm).1
  edits h := by
    rw [edits_region_iff hx] at h
    rw [edits_region_iff hy, hd, hi]
    exact h

theorem keeps_turn (orig target : Bytes) :
    terms.Keeps [.insert target, .delete orig] [.delete orig, .insert target] :=
  keeps_region (by simp [Op.kind]) (by simp [Op.kind]) rfl rfl

private theorem filter_partition (lead kind : Kind) (ops : Script) :
    (ops.filter (·.kind = lead) ++ ops.filter (·.kind ≠ lead)).filter (·.kind = kind) =
      ops.filter (·.kind = kind) := by
  rw [List.filter_append, List.filter_filter, List.filter_filter]
  by_cases h : kind = lead
  · subst h
    simp
  · have hnone :
        ops.filter (fun op => decide (op.kind = kind) && decide (op.kind = lead)) = [] := by
      simpa using fun op _ hk => hk ▸ h
    rw [hnone, List.nil_append]
    refine List.filter_congr fun op _ => ?_
    by_cases hk : op.kind = kind <;> simp [hk, h]

theorem keeps_regroup (hl : terms.limit? = none) {first : Op} {rest : Script}
    (h : ∀ op ∈ rest, Unchunk.sameRegion first op) :
    terms.Keeps (first :: rest) (Unchunk.regroup first.kind (first :: rest)) := by
  suffices hkeeps : terms.Keeps (first :: rest) ((first :: rest).filter (·.kind = first.kind) ++
      (first :: rest).filter (·.kind ≠ first.kind)) from
    hkeeps.trans ((keeps_grouped hl _).append (keeps_grouped hl _))
  have hsame : ∀ op ∈ first :: rest, (first.kind = .copy) = (op.kind = .copy) := by
    intro op hop
    rcases List.mem_cons.1 hop with rfl | hop
    · rfl
    · simpa [Unchunk.sameRegion] using h op hop
  generalize first :: rest = region at hsame
  by_cases hc : first.kind = .copy
  · have hall : ∀ op ∈ region, op.kind = first.kind := fun op hop => by
      rw [hc, ← hsame op hop]
      exact hc
    rw [List.filter_eq_self.2 (by simpa using hall), List.filter_eq_nil_iff.2 (by simpa using hall),
      List.append_nil]
    exact Keeps.refl _
  · have hall : ∀ op ∈ region, op.kind ≠ .copy := fun op hop => by
      rw [ne_eq, ← hsame op hop]
      exact hc
    refine keeps_region hall ?_ (filter_partition _ _ _) (filter_partition _ _ _)
    intro op hop
    simp only [List.mem_append, List.mem_filter] at hop
    exact hall op (hop.elim And.left And.left)

end Regions

section Cutting

private theorem edits_skips (runs : List Nat) {src : Bytes} (h : src.length = sumOf id runs) :
    Script.Edits (runs.map .skip) src [] := by
  induction runs generalizing src with
  | nil => simpa using h
  | cons run runs ih =>
    rw [sumOf_cons, id_eq] at h
    have hrest : Script.Edits (runs.map .skip) (src.drop run) [] := ih (by simp [h])
    have hskip : (Op.skip run).Edits (src.take run) [] := ⟨by simp [h], rfl⟩
    simpa using Script.Edits.cons hskip hrest

private theorem edits_deletes (blocks : List Bytes) :
    Script.Edits (blocks.map .delete) blocks.flatten [] := by
  induction blocks with
  | nil => exact .nil
  | cons block blocks ih => exact .cons (show (Op.delete block).Edits block [] from ⟨rfl, rfl⟩) ih

private theorem edits_inserts (blocks : List Bytes) :
    Script.Edits (blocks.map .insert) [] blocks.flatten := by
  induction blocks with
  | nil => exact .nil
  | cons block blocks ih => exact .cons (show (Op.insert block).Edits [] block from ⟨rfl, rfl⟩) ih

private theorem edits_pieces (size : Nat) {op : Op} {src dst : Bytes} (h : op.Edits src dst) :
    Script.Edits (Chunk.pieces size op) src dst := by
  unfold Chunk.pieces
  split
  · exact Script.edits_singleton_iff.2 h
  cases op with
  | copy run => exact Script.edits_singleton_iff.2 h
  | skip run =>
    obtain ⟨h, rfl⟩ := h
    exact edits_skips _ (by rw [h, Chunk.sum_runsOf])
  | delete bytes =>
    obtain ⟨rfl, rfl⟩ := h
    simpa [flatten_blocksOf] using edits_deletes (blocksOf size src)
  | insert bytes =>
    obtain ⟨rfl, rfl⟩ := h
    simpa [flatten_blocksOf] using edits_inserts (blocksOf size dst)

theorem keeps_pieces (size : Nat) (op : Op) : terms.Keeps [op] (Chunk.pieces size op) where
  allows h piece hp := by
    have ha := h op (by simp)
    have hpiece := Chunk.piece_of_mem hp
    refine ⟨hpiece.pos ha.pos, fun limit hl => Nat.le_trans hpiece.run_le (ha.short limit hl), ?_⟩
    rintro hs run rfl
    obtain ⟨run', rfl⟩ := hpiece.skip run rfl
    exact ha.remembers hs run' rfl
  edits h := edits_pieces size (Script.edits_singleton_iff.1 h)

theorem keeps_interleave (size : Nat) {a b : Op} (h : Chunk.replaces a b) :
    terms.Keeps [a, b] (Chunk.interleave (Chunk.pieces size a) (Chunk.pieces size b)) := by
  refine ((keeps_pieces size a).append (keeps_pieces size b)).trans ?_
  obtain ⟨hna, hnb, -⟩ := Chunk.kinds_of_replaces h
  have ha : ∀ op ∈ Chunk.pieces size a, op.kind ≠ .copy := fun op hop =>
    Chunk.kind_of_mem_pieces hop ▸ hna
  have hb : ∀ op ∈ Chunk.pieces size b, op.kind ≠ .copy := fun op hop =>
    Chunk.kind_of_mem_pieces hop ▸ hnb
  refine keeps_region ?_ ?_ ?_ ?_
  · intro op hop
    exact (List.mem_append.1 hop).elim (ha op) (hb op)
  · intro op hop
    exact (Chunk.mem_interleave hop).elim (ha op) (hb op)
  · exact Chunk.filter_interleave_pieces h .delete
  · exact Chunk.filter_interleave_pieces h .insert

end Cutting

theorem keeps_forget (hs : terms.skips = true) (op : Op) : terms.Keeps [op] [op.forget] where
  allows h other hother := by
    obtain rfl := List.mem_singleton.1 hother
    have ha := h op (by simp)
    refine ⟨by rw [Op.run_forget]; exact ha.pos, fun limit hl => ?_, fun h => by simp [hs] at h⟩
    rw [Op.run_forget]
    exact ha.short limit hl
  edits h := by
    rw [Script.edits_singleton_iff] at h ⊢
    cases op with
    | delete bytes => exact ⟨by rw [h.1], h.2⟩
    | _ => exact h

end Terms

end BytePatch
