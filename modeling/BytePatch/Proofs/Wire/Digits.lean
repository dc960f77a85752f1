import Mathlib.Algebra.BigOperators.Fin
import BytePatch.Proofs.Wire.RoundTrip

/-! What a run length comes to whose bytes are not those that were written for it. The sum of the
groups is read as it is while it fits into 64 bits; of a larger sum the last 64 bits are read. -/
namespace BytePatch

namespace Varint

/-- The bytes of a run length, however many: each but the last has its top bit set. -/
inductive Digits : Bytes → Prop
  | last {byte} : byte.toNat < 128 → Digits [byte]
  | more {byte digits} : 128 ≤ byte.toNat → Digits digits → Digits (byte :: digits)

theorem Digits.exists_last {digits : Bytes} (h : Digits digits) :
    ∃ byte ∈ digits, byte.toNat < 128 := by
  induction h with
  | last hb => exact ⟨_, List.mem_singleton_self _, hb⟩
  | more _ _ ih =>
    obtain ⟨byte, hmem, hb⟩ := ih
    exact ⟨byte, List.mem_cons_of_mem _ hmem, hb⟩

/-- What the groups of seven bits come to, lowest first. -/
def total (digits : Bytes) : Nat := ∑ i : Fin digits.length, digits[i].toNat % 128 * 2 ^ (7 * i.val)

theorem total_nil : total [] = 0 := rfl

theorem total_cons (byte : UInt8) (digits : Bytes) :
    total (byte :: digits) = byte.toNat % 128 + 128 * total digits := by
  have hsplit : total (byte :: digits) = byte.toNat % 128 * 2 ^ (7 * 0) +
      ∑ i : Fin digits.length, digits[i].toNat % 128 * 2 ^ (7 * (i.val + 1)) := Fin.sum_univ_succ _
  rw [hsplit, total, Finset.mul_sum]
  congr 1
  · exact Nat.mul_one _
  · refine Finset.sum_congr rfl fun i _ => ?_
    rw [Nat.mul_add, Nat.add_comm, Nat.pow_add, Nat.mul_left_comm]

private theorem total_cons_shifted (byte : UInt8) (digits : Bytes) (place : Nat) :
    total (byte :: digits) * 2 ^ (7 * place) =
      byte.toNat % 128 * 2 ^ (7 * place) + total digits * 2 ^ (7 * (place + 1)) := by
  have hp : 2 ^ (7 * (place + 1)) = 128 * 2 ^ (7 * place) := by
    rw [Nat.mul_add, Nat.add_comm, Nat.pow_add]
  rw [total_cons, hp, Nat.add_mul, Nat.mul_left_comm, Nat.mul_assoc, Nat.mul_left_comm]

private theorem go_digits_append {digits : Bytes} (h : Digits digits) (rest : Bytes)
    {left place : Nat} (hlength : digits.length ≤ left) (hplace : place + left = maxSize) :
    decode.go left place (digits ++ rest) =
      .ok (total digits * 2 ^ (7 * place) % UInt64.size, rest) := by
  induction h generalizing left place with
  | @last byte hb =>
    obtain ⟨left, rfl⟩ := Nat.exists_eq_add_one_of_ne_zero (Nat.ne_of_gt hlength)
    rw [List.singleton_append, decode.go, if_pos hb, total_cons, total_nil, Nat.mul_zero,
      Nat.add_zero, group, Nat.shiftLeft_eq]
  | @more byte digits hb _ ih =>
    obtain ⟨left, rfl⟩ : ∃ more, left = more + 1 :=
      ⟨left - 1, by rw [List.length_cons] at hlength; omega⟩
    have hrest := @ih left (place + 1) (Nat.le_of_succ_le_succ hlength) (by omega)
    have hread : decode.go (left + 1) place (byte :: (digits ++ rest)) =
        .ok (group place byte + total digits * 2 ^ (7 * (place + 1)) % UInt64.size, rest) := by
      rw [decode.go, if_neg (Nat.not_lt.2 hb), hrest]
    -- Even the highest groups there is room for leave the sum below the last place.
    have hlt := go_add_le hplace hread
    have hsum : group place byte + total digits * 2 ^ (7 * (place + 1)) % UInt64.size <
        UInt64.size := by
      have : 0 < 1 <<< (7 * place) := by rw [Nat.shiftLeft_eq, Nat.one_mul]; exact Nat.two_pow_pos _
      omega
    rw [List.cons_append, hread, total_cons_shifted, Nat.add_mod, ← Nat.mod_eq_of_lt hsum, group,
      Nat.shiftLeft_eq]

private theorem go_ok {left place value : Nat} {bytes rest : Bytes}
    (h : decode.go left place bytes = .ok (value, rest)) :
    ∃ digits, bytes = digits ++ rest ∧ Digits digits ∧ digits.length ≤ left := by
  fun_induction decode.go left place bytes generalizing value with
  | case1 => cases h
  | case2 => cases h
  | case3 left place byte tail hb =>
    cases h
    exact ⟨[byte], rfl, .last hb, Nat.le_add_left 1 left⟩
  | case4 left place byte tail hb cause he ih => cases h
  | case5 left place byte tail hb high after he ih =>
    cases h
    obtain ⟨digits, rfl, hdigits, hlength⟩ := ih he
    exact ⟨byte :: digits, rfl, .more (Nat.le_of_not_lt hb) hdigits, Nat.succ_le_succ hlength⟩

private theorem go_error {left place : Nat} {bytes : Bytes} {cause : BadFormat}
    (h : decode.go left place bytes = .error cause) :
    (∀ byte ∈ bytes.take left, 128 ≤ byte.toNat) ∧
      (cause = .runOverflow ∧ left ≤ bytes.length ∨
        cause = .truncatedRun ∧ bytes.length < left) := by
  fun_induction decode.go left place bytes with
  | case1 =>
    cases h
    exact ⟨by simp, .inl ⟨rfl, Nat.zero_le _⟩⟩
  | case2 =>
    cases h
    exact ⟨by simp, .inr ⟨rfl, Nat.succ_pos _⟩⟩
  | case3 left place byte tail hb => cases h
  | case4 left place byte tail hb cause' he ih =>
    cases h
    obtain ⟨htop, hcause⟩ := ih he
    refine ⟨?_, hcause.imp (And.imp_right Nat.succ_le_succ) (And.imp_right Nat.succ_lt_succ)⟩
    rw [List.take_succ_cons]
    exact List.forall_mem_cons.2 ⟨Nat.le_of_not_lt hb, htop⟩
  | case5 left place byte tail hb high after he ih => cases h

private theorem decode_digits_append {digits : Bytes} (h : Digits digits) (rest : Bytes)
    (hlength : digits.length ≤ maxSize) :
    decode (digits ++ rest) = .ok (total digits % UInt64.size, rest) := by
  rw [decode, go_digits_append h rest hlength (Nat.zero_add _), Nat.mul_zero, Nat.pow_zero,
    Nat.mul_one]

private theorem exists_decode_error {bytes : Bytes}
    (h : ∀ byte ∈ bytes.take maxSize, 128 ≤ byte.toNat) : ∃ cause, decode bytes = .error cause := by
  cases hread : decode bytes with
  | error cause => exact ⟨cause, rfl⟩
  | ok answer =>
    obtain ⟨digits, rfl, hdigits, hlength⟩ := go_ok hread
    obtain ⟨byte, hmem, hb⟩ := hdigits.exists_last
    rw [List.take_append, List.take_of_length_le hlength] at h
    exact absurd hb (Nat.not_lt.2 (h byte (List.mem_append_left _ hmem)))

/-- A run length of at most ten bytes reads as the last 64 bits of what its groups come to, which is
less than they come to if that does not fit. That a run is too long is only said of one whose first
ten bytes all have their top bits set. -/
theorem decode_low_bits (bytes : Bytes) :
    (∀ value rest, decode bytes = .ok (value, rest) ↔
      ∃ digits, bytes = digits ++ rest ∧ Digits digits ∧ digits.length ≤ maxSize ∧
        value = total digits % UInt64.size) ∧
    (decode bytes = .error .runOverflow ↔
      maxSize ≤ bytes.length ∧ ∀ byte ∈ bytes.take maxSize, 128 ≤ byte.toNat) ∧
    (decode bytes = .error .truncatedRun ↔
      bytes.length < maxSize ∧ ∀ byte ∈ bytes, 128 ≤ byte.toNat) := by
  refine ⟨fun value rest => ⟨fun h => ?_, ?_⟩, ⟨fun h => ?_, ?_⟩, ⟨fun h => ?_, ?_⟩⟩
  · obtain ⟨digits, rfl, hdigits, hlength⟩ := go_ok h
    rw [decode_digits_append hdigits rest hlength] at h
    cases h
    exact ⟨digits, rfl, hdigits, hlength, rfl⟩
  · rintro ⟨digits, rfl, hdigits, hlength, rfl⟩
    exact decode_digits_append hdigits rest hlength
  · obtain ⟨htop, ⟨-, hlength⟩ | ⟨hcause, -⟩⟩ := go_error h
    · exact ⟨hlength, htop⟩
    · cases hcause
  · rintro ⟨hlength, htop⟩
    obtain ⟨cause, he⟩ := exists_decode_error htop
    obtain ⟨-, ⟨rfl, -⟩ | ⟨-, hshort⟩⟩ := go_error he
    · exact he
    · exact absurd hlength (Nat.not_le.2 hshort)
  · obtain ⟨htop, ⟨hcause, -⟩ | ⟨-, hlength⟩⟩ := go_error h
    · cases hcause
    · rw [List.take_of_length_le hlength.le] at htop
      exact ⟨hlength, htop⟩
  · rintro ⟨hlength, htop⟩
    obtain ⟨cause, he⟩ := exists_decode_error (fun byte hmem =>
      htop byte (List.mem_of_mem_take hmem))
    obtain ⟨-, ⟨-, hlong⟩ | ⟨rfl, -⟩⟩ := go_error he
    · exact absurd hlong (Nat.not_le.2 hlength)
    · exact he

/-- Ten bytes whose groups come to one more than there are runs: they read as a run of one, and the
script they stand in copies one byte. -/
theorem decode_too_long :
    let digits : Bytes := [0x81, 0x80, 0x80, 0x80, 0x80, 0x80, 0x80, 0x80, 0x80, 0x02]
    Digits digits ∧ total digits = UInt64.size + 1 ∧ decode digits = .ok (1, []) ∧
      Script.decode (Opcode.copy.toByte :: digits ++ [Opcode.stop.toByte]) = .ok [.copy 1] := by
  refine ⟨?_, by decide, rfl, ?_⟩
  · repeat' first | exact .last (by decide) | refine .more (by decide) ?_
  · rw [Script.decode_of_some (show Op.decode? _ = .ok (some (.copy 1), [0]) from rfl),
      Script.decode_of_end rfl]
    rfl

end Varint

end BytePatch
