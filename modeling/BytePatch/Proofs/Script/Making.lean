import Mathlib.Data.List.Nodup
import BytePatch.Lattice.Step
import BytePatch.Proofs.Script.Fields

/-! Records made of other records without a check. Whatever was made of records of the right shape
has the right shape, as long as no sum of runs is beyond 64 bits. -/
namespace BytePatch

/-- Records that are put together one by one, none of them checked: some were given, and a step of a
path makes one; two may become one, one may be split, may forget its bytes or be taken back, and a
delete may have its bytes read again. -/
inductive Fields.Made (Given : Fields → Prop) : Fields → Prop
  | given {fields} : Given fields → Made Given fields
  | step (step : Step) : Made Given step.op.fields
  | merged {a b fields} : Made Given a → Made Given b → a.run + b.run < UInt64.size →
    a.merge? b = some fields → Made Given fields
  | combined {a b fields} : Made Given a → Made Given b → a.run + b.run < UInt64.size →
    a.combine? b = some fields → Made Given fields
  | piece {size fields piece} : 0 < size → Made Given fields → piece ∈ fields.split size →
    Made Given piece
  | forgotten {fields} : Made Given fields → Made Given fields.forget
  | undone {fields undone} : Made Given fields → fields.undo = .ok undone → Made Given undone
  | restored {fields bytes} : Made Given fields → fields.kind = .delete →
    bytes.length = fields.run → Made Given (insert bytes)

namespace Fields

theorem shaped_skip {run : Nat} (h : run ≠ 0) : (skip run).Shaped :=
  ⟨nofun, h, nofun, nofun, nofun⟩

theorem shaped_copy {run : Nat} (h : run ≠ 0) : (copy run).Shaped :=
  ⟨nofun, h, nofun, nofun, fun _ => rfl⟩

theorem shaped_delete {bytes : Bytes} (h : bytes.length ≠ 0) : (delete bytes).Shaped :=
  ⟨nofun, h, fun _ hb => by cases hb; rfl, nofun, nofun⟩

theorem shaped_insert {bytes : Bytes} (h : bytes.length ≠ 0) : (insert bytes).Shaped :=
  ⟨nofun, h, fun _ hb => by cases hb; rfl, fun _ => rfl, nofun⟩

variable {a b fields : Fields}

theorem Shaped.merge? (ha : a.Shaped) (hb : b.Shaped) (h : a.merge? b = some fields) :
    fields.Shaped := by
  unfold Fields.merge? at h
  split_ifs at h with hkind
  cases h
  refine ⟨ha.kind, fun hzero => ha.run (Nat.add_eq_zero_iff.1 hzero).1, ?_, ?_, ?_⟩
  · intro bytes hbytes
    cases hx : a.payload? with
    | none => simp [hx] at hbytes
    | some x =>
      cases hy : b.payload? with
      | none => simp [hx, hy] at hbytes
      | some y =>
        have hxy : x ++ y = bytes := by simpa [hx, hy] using hbytes
        rw [← hxy, List.length_append, ha.payload x hx, hb.payload y hy]
  · intro hinsert
    obtain ⟨x, hx⟩ := Option.isSome_iff_exists.1 (ha.insert hinsert)
    obtain ⟨y, hy⟩ := Option.isSome_iff_exists.1 (hb.insert (hkind ▸ hinsert))
    simp [hx, hy]
  · intro hcopy
    simp [ha.copy hcopy]

theorem Shaped.combine? (ha : a.Shaped) (hb : b.Shaped) (h : a.combine? b = some fields) :
    fields.Shaped := by
  unfold Fields.combine? at h
  split_ifs at h with hkind hcancels
  · exact ha.merge? hb h
  · cases h
    exact shaped_copy ha.run

private theorem lt_of_mem_starts {size bound start : Nat} (hs : 0 < size)
    (h : start ∈ starts size bound) : start < bound := by
  obtain ⟨i, hi, rfl⟩ := List.mem_range'.1 h
  have hi := (Nat.lt_div_iff_mul_lt hs).1 hi
  rw [Nat.mul_comm size i, Nat.zero_add]
  omega

theorem Shaped.split {size : Nat} {piece : Fields} (hs : 0 < size) (h : fields.Shaped)
    (hp : piece ∈ fields.split size) : piece.Shaped := by
  unfold Fields.split at hp
  by_cases hwhole : fields.run ≤ size ∨ fields.kind = .copy
  · rw [if_pos hwhole] at hp
    obtain rfl := List.mem_singleton.1 hp
    exact h
  rw [if_neg hwhole] at hp
  cases hpayload : fields.payload? with
  | none =>
    rw [hpayload] at hp
    obtain ⟨start, hstart, rfl⟩ := List.mem_map.1 hp
    have hlt := lt_of_mem_starts hs hstart
    exact shaped_skip (by omega)
  | some bytes =>
    rw [hpayload] at hp
    obtain ⟨start, hstart, rfl⟩ := List.mem_map.1 hp
    have hlt := lt_of_mem_starts hs hstart
    have hlength := h.payload bytes hpayload
    have hne : (bytes.extract start (min (start + size) fields.run)).length ≠ 0 := by
      rw [List.extract_eq_take_drop, List.length_take, List.length_drop]
      omega
    dsimp only
    split_ifs
    · exact shaped_insert hne
    · exact shaped_delete hne

theorem Shaped.forget (h : fields.Shaped) : fields.forget.Shaped := by
  unfold Fields.forget
  split_ifs
  · exact shaped_skip h.run
  · exact h

theorem Shaped.undo {undone : Fields} (h : fields.Shaped) (hu : fields.undo = .ok undone) :
    undone.Shaped := by
  unfold Fields.undo at hu
  split at hu <;> cases hu
  · next bytes _ hpayload => exact shaped_insert (h.payload bytes hpayload ▸ h.run)
  · next bytes _ hpayload => exact shaped_delete (h.payload bytes hpayload ▸ h.run)
  · exact h
  · exact h

/-- Records made of such of the right shape have it too. -/
theorem Made.shaped {Given : Fields → Prop} (hgiven : ∀ fields, Given fields → fields.Shaped)
    (h : Made Given fields) : fields.Shaped := by
  induction h with
  | given h => exact hgiven _ h
  | step step => cases step <;> exact Op.shaped_fields Nat.one_pos
  | merged _ _ _ h iha ihb => exact iha.merge? ihb h
  | combined _ _ _ h iha ihb => exact iha.combine? ihb h
  | piece hs _ h ih => exact ih.split hs h
  | forgotten _ ih => exact ih.forget
  | undone _ h ih => exact ih.undo h
  | restored _ _ hlength ih => exact shaped_insert (hlength ▸ ih.run)

end Fields

end BytePatch
