import BytePatch.Wire.Decode

/-! The wire format as a grammar of items. Reading an op is reading an item, no item is part of
another, and bytes of any kind begin with a longest stretch of items. -/
namespace BytePatch

namespace Varint

private theorem go_append {left place value : Nat} {digits rest : Bytes}
    (h : decode.go left place digits = .ok (value, rest)) (more : Bytes) :
    decode.go left place (digits ++ more) = .ok (value, rest ++ more) := by
  fun_induction decode.go left place digits generalizing value with
  | case1 => cases h
  | case2 => cases h
  | case3 left place byte tail hb =>
    cases h
    rw [List.cons_append, decode.go, if_pos hb]
  | case4 left place byte tail hb cause he ih => cases h
  | case5 left place byte tail hb high after he ih =>
    cases h
    rw [List.cons_append, decode.go, if_neg hb, ih he]

theorem decode_append {value : Nat} {digits rest : Bytes} (h : decode digits = .ok (value, rest))
    (more : Bytes) : decode (digits ++ more) = .ok (value, rest ++ more) := go_append h more

private theorem go_digits {left place value : Nat} {bytes rest : Bytes}
    (h : decode.go left place bytes = .ok (value, rest)) :
    ∃ digits, bytes = digits ++ rest ∧ decode.go left place digits = .ok (value, []) := by
  fun_induction decode.go left place bytes generalizing value with
  | case1 => cases h
  | case2 => cases h
  | case3 left place byte tail hb =>
    cases h
    exact ⟨[byte], rfl, by rw [decode.go, if_pos hb]⟩
  | case4 left place byte tail hb cause he ih => cases h
  | case5 left place byte tail hb high after he ih =>
    cases h
    obtain ⟨digits, rfl, hd⟩ := ih he
    exact ⟨byte :: digits, rfl, by rw [decode.go, if_neg hb, hd]⟩

/-- A run is read off bytes of its own. -/
theorem exists_digits {value : Nat} {bytes rest : Bytes} (h : decode bytes = .ok (value, rest)) :
    ∃ digits, bytes = digits ++ rest ∧ decode digits = .ok (value, []) := go_digits h

end Varint

namespace Op

/-- The items of the wire format: an opcode, a run that is not zero, and as many bytes of payload
where the opcode asks for them. -/
inductive Item : Bytes → Op → Prop
  | skip {digits run} : Varint.decode digits = .ok (run, []) → run ≠ 0 →
      Item (1 :: digits) (.skip run)
  | insert {digits run payload} : Varint.decode digits = .ok (run, []) → run ≠ 0 →
      payload.length = run → Item (2 :: digits ++ payload) (.insert payload)
  | copy {digits run} : Varint.decode digits = .ok (run, []) → run ≠ 0 →
      Item (3 :: digits) (.copy run)
  | delete {digits run payload} : Varint.decode digits = .ok (run, []) → run ≠ 0 →
      payload.length = run → Item (4 :: digits ++ payload) (.delete payload)

theorem Item.valid {item : Bytes} {op : Op} (h : Item item op) : op.Valid := by
  have hrun : ∀ {digits run}, Varint.decode digits = .ok (run, []) → run ≠ 0 →
      0 < run ∧ run < UInt64.size :=
    fun hd hr => ⟨Nat.pos_of_ne_zero hr, Varint.lt_of_decode hd⟩
  cases h with
  | skip hd hr => exact hrun hd hr
  | insert hd hr hp =>
    subst hp
    exact hrun hd hr
  | copy hd hr => exact hrun hd hr
  | delete hd hr hp =>
    subst hp
    exact hrun hd hr

/-- Every item is read, and nothing behind it is touched. -/
theorem Item.decode? {item : Bytes} {op : Op} (h : Item item op) (rest : Bytes) :
    Op.decode? (item ++ rest) = .ok (some op, rest) := by
  cases h with
  | skip hd hr =>
    have hd := Varint.decode_append hd rest
    simp [Op.decode?, Opcode.ofByte?, Opcode.hasPayload, Op.decode?.bare, hd, hr]
  | insert hd hr hp =>
    subst hp
    have hd := Varint.decode_append hd
    simp [Op.decode?, Opcode.ofByte?, Opcode.hasPayload, Op.decode?.carrying, hd, hr]
  | copy hd hr =>
    have hd := Varint.decode_append hd rest
    simp [Op.decode?, Opcode.ofByte?, Opcode.hasPayload, Op.decode?.bare, hd, hr]
  | delete hd hr hp =>
    subst hp
    have hd := Varint.decode_append hd
    simp [Op.decode?, Opcode.ofByte?, Opcode.hasPayload, Op.decode?.carrying, hd, hr]

/-- Two items that stand in front of the same bytes are one. -/
theorem Item.inj {item item' rest rest' : Bytes} {op op' : Op} (h : Item item op)
    (h' : Item item' op') (heq : item ++ rest = item' ++ rest') :
    op = op' ∧ item = item' ∧ rest = rest' := by
  have hread := h.decode? rest
  rw [heq, h'.decode? rest'] at hread
  obtain ⟨hop, rfl⟩ := Prod.mk.inj (Except.ok.inj hread)
  exact ⟨(Option.some.inj hop).symm, List.append_cancel_right heq, rfl⟩

theorem exists_item {bytes rest : Bytes} {op : Op} (h : Op.decode? bytes = .ok (some op, rest)) :
    ∃ item, bytes = item ++ rest ∧ Item item op := by
  unfold Op.decode? at h
  split at h
  · cases h
  next byte tail =>
  split at h
  · cases h
  · cases h
  next code hstop hcode =>
  obtain rfl := Opcode.toByte_of_ofByte? hcode
  split at h
  · cases h
  next run after hv =>
  obtain ⟨digits, rfl, hd⟩ := Varint.exists_digits hv
  split at h
  · cases h
  next hr =>
  have hsplit (opcode : UInt8) : opcode :: (digits ++ after) =
      opcode :: digits ++ after.take run ++ after.drop run := by
    rw [List.append_assoc, List.take_append_drop, List.cons_append]
  cases code with
  | stop => exact absurd rfl hstop
  | delete =>
    cases h
    exact ⟨1 :: digits, rfl, .skip hd hr⟩
  | copy =>
    cases h
    exact ⟨3 :: digits, rfl, .copy hd hr⟩
  | insert =>
    rw [if_pos (show Opcode.hasPayload .insert = true from rfl)] at h
    split at h
    · cases h
    next hlen =>
    cases h
    exact ⟨_, hsplit 2, .insert hd hr (List.length_take_of_le (Nat.le_of_not_lt hlen))⟩
  | deleteWithPayload =>
    rw [if_pos (show Opcode.hasPayload .deleteWithPayload = true from rfl)] at h
    split at h
    · cases h
    next hlen =>
    cases h
    exact ⟨_, hsplit 4, .delete hd hr (List.length_take_of_le (Nat.le_of_not_lt hlen))⟩

/-- Only a zero is read as the end marker. -/
theorem eq_of_decode?_none {bytes rest : Bytes} (h : Op.decode? bytes = .ok (none, rest)) :
    bytes = 0 :: rest := by
  unfold Op.decode? at h
  split at h
  · cases h
  next byte tail =>
  split at h
  · cases h
  next hcode =>
    cases h
    rw [← Opcode.toByte_of_ofByte? hcode]
    rfl
  · split at h
    · cases h
    · split at h
      · cases h
      · split at h
        · split at h <;> cases h
        · cases h

end Op

namespace Script

/-- Items in a row and the ops they stand for. -/
inductive Items : Bytes → Script → Prop
  | nil : Items [] []
  | cons {item bytes op ops} : Op.Item item op → Items bytes ops → Items (item ++ bytes) (op :: ops)

/-- No item stands in front. -/
def Stuck (bytes : Bytes) : Prop := ∀ op rest, Op.decode? bytes ≠ .ok (some op, rest)

theorem exists_items (bytes : Bytes) :
    ∃ front rest ops, bytes = front ++ rest ∧ Items front ops ∧ Stuck rest := by
  by_cases h : Stuck bytes
  · exact ⟨[], bytes, [], rfl, .nil, h⟩
  · simp only [Stuck, ne_eq, Classical.not_forall, Classical.not_not] at h
    obtain ⟨op, after, hop⟩ := h
    have hless := (Op.length_of_decode? hop).1
    obtain ⟨item, rfl, hitem⟩ := Op.exists_item hop
    obtain ⟨front, rest, ops, rfl, hitems, hstuck⟩ := exists_items after
    exact ⟨item ++ front, rest, op :: ops, (List.append_assoc _ _ _).symm, .cons hitem hitems,
      hstuck⟩
termination_by bytes.length

namespace Items
variable {front rest : Bytes} {ops : Script}

theorem valid (h : Items front ops) : ∀ op ∈ ops, op.Valid := by
  induction h with
  | nil => exact nofun
  | cons hitem _ ih => exact List.forall_mem_cons.2 ⟨hitem.valid, ih⟩

theorem longest (h : Items front ops) (hstuck : Stuck rest) {front' : Bytes} {ops' : Script}
    (h' : Items front' ops') (hfront : front' <+: front ++ rest) : front' <+: front ∧ ops' <+: ops := by
  induction h' generalizing front ops with
  | nil => exact ⟨List.nil_prefix, List.nil_prefix⟩
  | @cons item' bytes' op' ops' hitem' _ ih =>
    obtain ⟨more, hmore⟩ := hfront
    rw [List.append_assoc] at hmore
    cases h with
    | nil =>
      rw [List.nil_append] at hmore
      exact absurd (hitem'.decode? (bytes' ++ more)) (hmore ▸ hstuck _ _)
    | cons hitem hitems =>
      rw [List.append_assoc] at hmore
      obtain ⟨rfl, rfl, hbytes⟩ := hitem'.inj hitem hmore
      obtain ⟨hfront, hops⟩ := ih hitems ⟨more, hbytes⟩
      exact ⟨List.prefix_append_right_inj _ |>.2 hfront, List.cons_prefix_cons.2 ⟨rfl, hops⟩⟩

end Items

end Script

end BytePatch
