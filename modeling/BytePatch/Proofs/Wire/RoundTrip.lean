import Mathlib.Algebra.Ring.Nat
import BytePatch.Proofs.Queue.Runs
import BytePatch.Proofs.Wire.Items

/-! What is written is read back: run lengths, ops, whole scripts, and scripts read lazily from a
decoding source. Sizes computed without encoding are the sizes of the encodings. -/
namespace BytePatch

namespace Varint

private theorem toNat_ofNat {n : Nat} (h : n < 256) : (UInt8.ofNat n).toNat = n := by
  rw [UInt8.toNat_ofNat']
  exact Nat.mod_eq_of_lt h

private theorem split_group (value place : Nat) :
    value % 128 * 2 ^ (7 * place) + value / 128 * 2 ^ (7 * (place + 1)) =
      value * 2 ^ (7 * place) := by
  have hp : 2 ^ (7 * (place + 1)) = 128 * 2 ^ (7 * place) := by
    rw [show 7 * (place + 1) = 7 + 7 * place by omega, Nat.pow_add]
  rw [hp, ← Nat.mul_assoc, ← Nat.add_mul, Nat.mul_comm (value / 128), Nat.mod_add_div]

private theorem room_after {left place value : Nat} (hp : place + (left + 1) = maxSize)
    (hv : value * 2 ^ (7 * place) < UInt64.size) (hb : 128 ≤ value) : 0 < left := by
  rcases Nat.eq_zero_or_pos left with rfl | h
  · have hplace : place = 9 := by simp only [maxSize] at hp; omega
    subst hplace
    unfold UInt64.size at hv
    omega
  · exact h

private theorem go_encode (value : Nat) (rest : Bytes) (left place : Nat)
    (hp : place + (left + 1) = maxSize) (hv : value * 2 ^ (7 * place) < UInt64.size) :
    decode.go (left + 1) place (encode value ++ rest) = .ok (value * 2 ^ (7 * place), rest) := by
  fun_induction encode value generalizing left place with
  | case1 value h =>
    have hg : group place (UInt8.ofNat value) = value * 2 ^ (7 * place) := by
      rw [group, Nat.shiftLeft_eq, toNat_ofNat (by omega), Nat.mod_eq_of_lt h,
        Nat.mod_eq_of_lt hv]
    rw [List.cons_append, decode.go, toNat_ofNat (by omega), if_pos h, hg, List.nil_append]
  | case2 value h ih =>
    obtain ⟨left, rfl⟩ :=
      Nat.exists_eq_add_one_of_ne_zero (Nat.ne_of_gt (room_after hp hv (by omega)))
    have hs := split_group value place
    have hg : group place (UInt8.ofNat (value % 128 + 128)) = value % 128 * 2 ^ (7 * place) := by
      rw [group, Nat.shiftLeft_eq, toNat_ofNat (by omega), Nat.add_mod_right, Nat.mod_mod]
      exact Nat.mod_eq_of_lt (by omega)
    have htail := ih left (place + 1) (by omega) (by omega)
    rw [List.cons_append, decode.go, toNat_ofNat (by omega), if_neg (by omega), htail]
    simp only [hg, hs]

/-- A 64-bit run reads back, and nothing behind it is touched. -/
theorem decode_encode {value : Nat} (h : value < UInt64.size) (rest : Bytes) :
    decode (encode value ++ rest) = .ok (value, rest) := by
  have := go_encode value rest 9 0 rfl (by omega)
  simpa [decode, maxSize] using this

end Varint

namespace Op

theorem ofParts_eq {op : Op} (h : op.Valid) : ofParts op.kind op.run op.payload? = .ok op := by
  have hz := Nat.ne_of_gt h.1
  cases op <;> simp_all [ofParts, ofParts.fitting, kind, run, payload?]

theorem item_encode {op : Op} (h : op.Valid) : Item op.encode op := by
  have hd : Varint.decode (Varint.encode op.run) = .ok (op.run, []) := by
    simpa using Varint.decode_encode h.2 []
  have hr : op.run ≠ 0 := Nat.ne_of_gt h.1
  cases op with
  | copy run =>
    rw [encode, payload?, Option.getD_none, List.append_nil]
    exact .copy hd hr
  | skip run =>
    rw [encode, payload?, Option.getD_none, List.append_nil]
    exact .skip hd hr
  | delete bytes => exact .delete hd hr rfl
  | insert bytes => exact .insert hd hr rfl

/-- An op reads back, and nothing behind it is touched. -/
theorem decode?_encode {op : Op} (h : op.Valid) (rest : Bytes) :
    Op.decode? (op.encode ++ rest) = .ok (some op, rest) := (item_encode h).decode? rest

end Op

namespace Script

theorem encode_cons (op : Op) (ops : Script) : encode (op :: ops) = op.encode ++ encode ops := by
  simp [encode]

theorem length_encode (ops : Script) : (encode ops).length = encodedSize ops := by
  induction ops with
  | nil => rfl
  | cons op ops ih =>
    rw [encode_cons, List.length_append, ih, op.length_encode]
    simp only [encodedSize, sumOf_cons, Nat.add_assoc]

theorem decode_of_some {bytes rest : Bytes} {op : Op}
    (h : Op.decode? bytes = .ok (some op, rest)) :
    decode bytes = (op :: ·) <$> decode rest := by
  rw [decode]
  split <;> simp_all

theorem decode_of_end {bytes : Bytes} (h : Op.decode? bytes = .ok (none, [])) :
    decode bytes = .ok [] := by
  rw [decode]
  split <;> simp_all

theorem decode_encode {ops : Script} (h : ∀ op ∈ ops, op.Valid) :
    decode (encode ops) = .ok ops := by
  induction ops with
  | nil => exact decode_of_end rfl
  | cons op ops ih =>
    rw [encode_cons, decode_of_some (Op.decode?_encode (h op List.mem_cons_self) _),
      ih fun op hop => h op (List.mem_cons_of_mem _ hop)]
    rfl

end Script

namespace Source

theorem poll_decoding {bytes rest : Bytes} {op : Op}
    (h : Op.decode? bytes = .ok (some op, rest)) :
    poll (decoding bytes) = (.ok (some op), decoding rest) := by
  simp [poll, shift, decoding, Decoder.next, h, Buffers.empty, Buffers.pushReady]

theorem poll_decoding_end {bytes : Bytes} (h : Op.decode? bytes = .ok (none, [])) :
    poll (decoding bytes) = (.ok none, ⟨.empty, .encoded .finished⟩) := by
  simp [poll, shift, decoding, Decoder.next, h, Buffers.empty]

/-- A source that decodes as it is polled yields what decoding at once gives. -/
theorem yields_decoding {bytes : Bytes} {ops : Script} (h : Script.decode bytes = .ok ops) :
    feed.Yields (decoding bytes) ops := by
  induction ops generalizing bytes with
  | nil =>
    rw [Script.decode] at h
    split at h
    · cases h
    · next he => exact .dry (poll_decoding_end he)
    · cases h
    · next op rest he =>
      cases hd : Script.decode rest <;> rw [hd] at h <;> simp [Functor.map, Except.map] at h
  | cons op ops ih =>
    rw [Script.decode] at h
    split at h
    · cases h
    · cases h
    · cases h
    · next first rest he =>
      cases hd : Script.decode rest <;> rw [hd] at h <;> simp [Functor.map, Except.map] at h
      obtain ⟨rfl, rfl⟩ := h
      exact .op (poll_decoding he) (ih hd)

end Source

namespace Script

private theorem encode_insert (front : Script) (op : Op) (back : Script) :
    encode (front ++ op :: back) = front.flatMap Op.encode ++ op.encode ++ encode back := by
  simp [encode]

/-- Encoding loses nothing, whether the bytes are read back at once or op by op. Its size is the
computed one, of which every op takes up its own share, and a queue is encoded as what it
yields. -/
theorem encode_round_trip {ops : Script} (h : ∀ op ∈ ops, op.Valid) :
    decode (encode ops) = .ok ops ∧
    (∃ after, (Queue.ofSource (.decoding (encode ops))).drain = (.ok (), ops, after)) ∧
    (encode ops).length = encodedSize ops ∧
    (∀ front op back, ops = front ++ op :: back → ∃ before behind,
      encode ops = before ++ op.encode ++ behind ∧ encode (front ++ back) = before ++ behind ∧
      op.encode.length = op.encodedSize) ∧
    ∀ queue : Queue, queue.Yields ops → queue.encode.1 = .ok (encode ops) := by
  have hd := decode_encode h
  have hlazy : (Queue.ofSource (.decoding (encode ops))).Yields ops := Source.yields_decoding hd
  refine ⟨hd, hlazy.drain, length_encode ops, ?_, fun queue hq => hq.encode⟩
  rintro front op back rfl
  refine ⟨front.flatMap Op.encode, encode back, encode_insert front op back, ?_, op.length_encode⟩
  simp [encode]

/-- Runs on both sides of a seven-bit boundary, the longest run there is, and payloads made of
bytes that could pass for opcodes. -/
theorem encode_round_trip_boundaries :
    decode (encode
        [.copy 127, .skip 128, .insert [0, 1, 0], .copy (UInt64.size - 1), .delete [4]]) =
      .ok [.copy 127, .skip 128, .insert [0, 1, 0], .copy (UInt64.size - 1), .delete [4]] :=
  (encode_round_trip (by decide)).1

end Script

end BytePatch
