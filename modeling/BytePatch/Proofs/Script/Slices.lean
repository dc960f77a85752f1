import BytePatch.Proofs.Script.Summary
import BytePatch.Proofs.Script.Totals

/-! The pieces of an op as slices of what it covers, and a script that is cut stretch by stretch: the
copies as they were, and of each other kind the slices of its ops in their order. -/
namespace BytePatch

namespace Op

/-- What an op covers from `start` on, `size` bytes of it or as many as there are. -/
def slice (start size : Nat) : Op → Op
  | .copy run => .copy (min size (run - start))
  | .skip run => .skip (min size (run - start))
  | .delete bytes => .delete ((bytes.drop start).take size)
  | .insert bytes => .insert ((bytes.drop start).take size)

/-- All slices of `size` bytes, the last of them shorter if need be. -/
def slices (size : Nat) (op : Op) : Script :=
  (List.range ((op.run + size - 1) / size)).map fun count => op.slice (count * size) size

end Op

namespace Chunk

private theorem map_range_slices {β : Type} {size run : Nat} (hs : 0 < size) (hr : 0 < run)
    (f : Nat → β) : (List.range ((run + size - 1) / size)).map f =
      f 0 :: (List.range ((run - size + size - 1) / size)).map fun count => f (count + 1) := by
  have hcount : (run + size - 1) / size = (run - size + size - 1) / size + 1 := by
    rw [← Nat.add_div_right _ hs]
    by_cases hle : size ≤ run
    · congr 1
      omega
    · rw [Nat.div_eq_of_lt_le (k := 1) (by omega) (by omega),
        Nat.div_eq_of_lt_le (k := 1) (by omega) (by omega)]
  rw [hcount, List.range_succ_eq_map, List.map_cons, List.map_map]
  rfl

private theorem runsOf_eq_slices {size : Nat} (hs : 0 < size) (run : Nat) :
    runsOf size run = (List.range ((run + size - 1) / size)).map fun count =>
      min size (run - count * size) := by
  have hmax : max 1 size = size := Nat.max_eq_right hs
  fun_induction runsOf size run with
  | case1 =>
    rw [Nat.zero_add, Nat.div_eq_of_lt (Nat.sub_one_lt_of_lt hs)]
    rfl
  | case2 run hr ih =>
    rw [hmax] at ih ⊢
    have hrest : run - min size run = run - size := by omega
    rw [hrest] at ih ⊢
    rw [ih, map_range_slices hs (Nat.pos_of_ne_zero hr)]
    congr 1
    · rw [Nat.zero_mul, Nat.sub_zero]
    · refine List.map_congr_left fun count _ => ?_
      rw [Nat.succ_mul, Nat.sub_sub, Nat.add_comm]

private theorem blocksOf_eq_slices {size : Nat} (hs : 0 < size) (bytes : Bytes) :
    blocksOf size bytes = (List.range ((bytes.length + size - 1) / size)).map fun count =>
      (bytes.drop (count * size)).take size := by
  induction hn : bytes.length using Nat.strongRecOn generalizing bytes with
  | _ n ih =>
  subst hn
  by_cases hnil : bytes = []
  · subst hnil
    rw [List.length_nil, Nat.zero_add, Nat.div_eq_of_lt (Nat.sub_one_lt_of_lt hs), blocksOf]
    rfl
  · have hpos := List.length_pos_iff.2 hnil
    have hless : (bytes.drop size).length < bytes.length := by
      rw [List.length_drop]
      omega
    rw [blocksOf_eq hs hnil, ih _ hless _ rfl, map_range_slices hs hpos, List.length_drop]
    congr 1
    · rw [Nat.zero_mul, List.drop_zero]
    · refine List.map_congr_left fun count _ => ?_
      rw [List.drop_drop, Nat.succ_mul, Nat.add_comm]

theorem pieces_eq_slices {size : Nat} (hs : 0 < size) {op : Op} (hcopy : op.kind ≠ .copy)
    (hpos : 0 < op.run) : pieces size op = op.slices size := by
  unfold pieces
  split
  · next hle =>
    have hone : (op.run + size - 1) / size = 1 :=
      Nat.div_eq_of_lt_le (by omega) (by omega)
    have hwhole : op.slice 0 size = op := by
      cases op with
      | copy run => exact absurd rfl hcopy
      | skip run => exact congrArg Op.skip (Nat.min_eq_right hle)
      | delete bytes => exact congrArg Op.delete (List.take_of_length_le hle)
      | insert bytes => exact congrArg Op.insert (List.take_of_length_le hle)
    rw [Op.slices, hone, List.range_one, List.map_singleton, Nat.zero_mul, hwhole]
  · cases op with
    | copy run => exact absurd rfl hcopy
    | skip run =>
      change (runsOf size run).map Op.skip = _
      rw [runsOf_eq_slices hs, List.map_map]
      rfl
    | delete bytes =>
      change (blocksOf size bytes).map Op.delete = _
      rw [blocksOf_eq_slices hs, List.map_map]
      rfl
    | insert bytes =>
      change (blocksOf size bytes).map Op.insert = _
      rw [blocksOf_eq_slices hs, List.map_map]
      rfl

private theorem bytes_pieces (size : Nat) (op : Op) :
    Script.bytes (pieces size op) = op.payload?.getD [] := by
  have hblocks (make : Bytes → Op) (hmake : ∀ block, (make block).payload?.getD [] = block)
      (bytes : Bytes) : Script.bytes ((blocksOf size bytes).map make) = bytes := by
    rw [Script.bytes, List.flatMap_map, List.flatMap_congr fun block _ => hmake block,
      List.flatMap_id', flatten_blocksOf]
  unfold pieces
  split
  · exact List.flatMap_singleton ..
  · cases op with
    | copy run => rfl
    | skip run => exact List.flatMap_eq_nil_iff.2 (by simp [Op.payload?])
    | delete bytes => exact hblocks .delete (fun _ => rfl) bytes
    | insert bytes => exact hblocks .insert (fun _ => rfl) bytes

/-- What a stretch of a script is cut into: copies stay as they are, and of each other kind the
slices of its ops stand in their order, so that they have the bytes of the ops, one after the other,
and add up to what the ops do. -/
structure Slices (size : Nat) (stretch part : Script) : Prop where
  copies : (∀ op ∈ stretch, op.kind = .copy) → part = stretch
  edits : ∀ kind, kind ≠ .copy → part.filter (·.kind = kind) =
    (stretch.filter (·.kind = kind)).flatMap (Op.slices size)
  bytes : ∀ kind, Script.bytes (part.filter (·.kind = kind)) =
    Script.bytes (stretch.filter (·.kind = kind))
  totals : ∀ kind, Script.total kind part = Script.total kind stretch

theorem slices_cut {size : Nat} (hs : 0 < size) {ops : Script} (hpos : ∀ op ∈ ops, 0 < op.run) :
    Slices size ops (cut size ops) where
  copies := cut_copies
  edits kind hkind := by
    rw [filter_cut]
    refine List.flatMap_congr fun op hop => ?_
    obtain ⟨hop, hk⟩ := List.mem_filter.1 hop
    refine pieces_eq_slices hs (fun hcopy => hkind ?_) (hpos op hop)
    rw [← hcopy]
    exact (of_decide_eq_true hk).symm
  bytes kind := by
    rw [filter_cut, Script.bytes, List.flatMap_assoc]
    exact List.flatMap_congr fun op _ => bytes_pieces size op
  totals kind := Script.total_cut kind size ops

/-- Every stretch is cut for itself. -/
theorem slices_regions {size : Nat} (hs : 0 < size) {ops : Script} (hpos : ∀ op ∈ ops, 0 < op.run) :
    List.Forall₂ (Slices size) ops.regions (cut size ops).regions := by
  rw [Script.regions_cut, List.forall₂_map_right_iff, List.forall₂_same]
  intro region hregion
  refine slices_cut hs fun op hop => hpos op ?_
  rw [← (Script.stretches_regions ops).flatten]
  exact List.mem_flatten_of_mem hregion hop

end Chunk

end BytePatch
