import BytePatch.Stage.Chunk

/-! The pieces of an op: they add up to it, none is empty unless it is, and none is longer than
asked. -/
namespace BytePatch

section Blocks
variable {size : Nat} {bytes : Bytes}

theorem blocksOf_eq (hs : 0 < size) (hne : bytes ≠ []) :
    blocksOf size bytes = bytes.take size :: blocksOf size (bytes.drop size) := by
  obtain ⟨less, rfl⟩ := Nat.exists_eq_add_one_of_ne_zero (Nat.ne_of_gt hs)
  cases bytes with
  | nil => exact absurd rfl hne
  | cons byte rest =>
    rw [blocksOf]
    rfl

theorem blocksOf_of_length_le (hs : 0 < size) (hne : bytes ≠ []) (h : bytes.length ≤ size) :
    blocksOf size bytes = [bytes] := by
  rw [blocksOf_eq hs hne, List.take_of_length_le h, List.drop_of_length_le h, blocksOf]

end Blocks

namespace Chunk

theorem sum_runsOf (size run : Nat) : sumOf id (runsOf size run) = run := by
  fun_induction runsOf size run with
  | case1 => rfl
  | case2 run h ih =>
    rw [sumOf_cons, ih, id_eq]
    omega

theorem mem_runsOf {size run part : Nat} (h : part ∈ runsOf size run) :
    0 < part ∧ part ≤ max 1 size ∧ part ≤ run := by
  fun_induction runsOf size run with
  | case1 => cases h
  | case2 run hr ih =>
    rcases List.mem_cons.1 h with rfl | h
    · omega
    · have := ih h
      omega

theorem mem_blocksOf {size : Nat} {bytes block : Bytes} (h : block ∈ blocksOf size bytes) :
    0 < block.length ∧ block.length ≤ max 1 size ∧ block.length ≤ bytes.length := by
  refine ⟨?_, length_le_of_mem_blocksOf h, ?_⟩
  · fun_induction blocksOf size bytes with
    | case1 => cases h
    | case2 byte rest ih =>
      rcases List.mem_cons.1 h with rfl | h
      · exact Nat.succ_pos _
      · exact ih h
  · rw [← flatten_blocksOf size bytes]
    exact (List.sublist_flatten_of_mem h).length_le

/-- What a piece has of the op it is a piece of. -/
structure Piece (size : Nat) (op piece : Op) : Prop where
  pos : 0 < op.run → 0 < piece.run
  run_le : piece.run ≤ op.run
  short : op.kind ≠ .copy → piece.run ≤ max 1 size
  kind_eq : piece.kind = op.kind
  skip : ∀ run, piece = .skip run → ∃ run', op = .skip run'

theorem piece_of_mem {size : Nat} {op piece : Op} (h : piece ∈ pieces size op) :
    Piece size op piece := by
  unfold pieces at h
  split at h
  · next hs =>
    obtain rfl := List.mem_singleton.1 h
    exact ⟨id, Nat.le_refl _, fun _ => by omega, rfl, fun run h => ⟨run, h⟩⟩
  cases op with
  | copy run =>
    obtain rfl := List.mem_singleton.1 h
    exact ⟨id, Nat.le_refl _, fun h => absurd rfl h, rfl, nofun⟩
  | skip run =>
    obtain ⟨part, hp, rfl⟩ := List.mem_map.1 h
    obtain ⟨h1, h2, h3⟩ := mem_runsOf hp
    exact ⟨fun _ => h1, h3, fun _ => h2, rfl, fun _ _ => ⟨run, rfl⟩⟩
  | delete bytes =>
    obtain ⟨part, hp, rfl⟩ := List.mem_map.1 h
    obtain ⟨h1, h2, h3⟩ := mem_blocksOf hp
    exact ⟨fun _ => h1, h3, fun _ => h2, rfl, nofun⟩
  | insert bytes =>
    obtain ⟨part, hp, rfl⟩ := List.mem_map.1 h
    obtain ⟨h1, h2, h3⟩ := mem_blocksOf hp
    exact ⟨fun _ => h1, h3, fun _ => h2, rfl, nofun⟩

private theorem runsOf_ne_nil {size run : Nat} (h : 0 < run) : runsOf size run ≠ [] := by
  rw [runsOf, if_neg (by omega)]
  exact List.cons_ne_nil _ _

private theorem blocksOf_ne_nil {size : Nat} {bytes : Bytes} (h : 0 < bytes.length) :
    blocksOf size bytes ≠ [] := by
  cases bytes with
  | nil => cases h
  | cons byte rest => simp [blocksOf]

theorem pieces_ne_nil (size : Nat) (op : Op) : pieces size op ≠ [] := by
  unfold pieces
  split
  · exact List.cons_ne_nil _ _
  next hr =>
  cases op with
  | copy run => exact List.cons_ne_nil _ _
  | skip run => simpa using runsOf_ne_nil (by simp only [Op.run] at hr; omega)
  | delete bytes => simpa using blocksOf_ne_nil (by simp only [Op.run] at hr; omega)
  | insert bytes => simpa using blocksOf_ne_nil (by simp only [Op.run] at hr; omega)

theorem interleave_ne_nil {xs : List Op} (h : xs ≠ []) (ys : List Op) : interleave xs ys ≠ [] := by
  cases xs with
  | nil => exact absurd rfl h
  | cons x xs => cases ys <;> simp [interleave]

theorem mem_interleave {xs ys : List Op} {op : Op} (h : op ∈ interleave xs ys) :
    op ∈ xs ∨ op ∈ ys := by
  fun_induction interleave xs ys with
  | case1 lead leads follow follows ih =>
    simp only [List.mem_cons] at h ⊢
    rcases h with h | h | h
    · exact .inl (.inl h)
    · exact .inr (.inl h)
    · exact (ih h).imp .inr .inr
  | case2 follows => exact .inr h
  | case3 leads => exact .inl h

private theorem filter_interleave {p : Op → Bool} (xs ys : List Op)
    (h : ∀ x ∈ xs, ∀ y ∈ ys, p x = true → p y = false) :
    (interleave xs ys).filter p = (xs ++ ys).filter p := by
  fun_induction interleave xs ys with
  | case1 lead leads follow follows ih =>
    have ih := ih fun x hx y hy => h x (List.mem_cons_of_mem _ hx) y (List.mem_cons_of_mem _ hy)
    have hx : ∀ x ∈ lead :: leads, p x = true → p follow = false := fun x hx =>
      h x hx follow List.mem_cons_self
    rw [List.filter_append] at ih ⊢
    cases hf : p follow with
    | false => cases hl : p lead <;> simp [hl, hf, ih]
    | true =>
      have hnone : ∀ x ∈ lead :: leads, p x = false := fun x hmem => by
        simpa [hf] using hx x hmem
      have hleads : leads.filter p = [] := List.filter_eq_nil_iff.2 fun x hmem => by
        simp [hnone x (List.mem_cons_of_mem _ hmem)]
      simp [hnone lead List.mem_cons_self, hf, ih, hleads]
  | case2 follows => rfl
  | case3 leads => simp

theorem kind_of_mem_pieces {size : Nat} {op piece : Op} (h : piece ∈ pieces size op) :
    piece.kind = op.kind := (piece_of_mem h).kind_eq

theorem kinds_of_replaces {a b : Op} (h : replaces a b) :
    a.kind ≠ .copy ∧ b.kind ≠ .copy ∧ a.kind ≠ b.kind := by
  cases a <;> cases b <;> simp [replaces, Op.kind, Kind.inverse] at h ⊢

theorem filter_interleave_pieces {size : Nat} {a b : Op} (h : replaces a b) (kind : Kind) :
    (interleave (pieces size a) (pieces size b)).filter (·.kind = kind) =
      (pieces size a ++ pieces size b).filter (·.kind = kind) := by
  refine filter_interleave _ _ fun x hx y hy => ?_
  rw [kind_of_mem_pieces hx, kind_of_mem_pieces hy, decide_eq_true_eq, decide_eq_false_iff_not]
  rintro rfl
  exact (kinds_of_replaces h).2.2.symm

end Chunk

end BytePatch
