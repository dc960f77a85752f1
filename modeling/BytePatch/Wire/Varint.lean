import BytePatch.Fault
/-!
Run lengths on the wire: groups of seven bits, lowest first, each but the last with its top bit
set. Reading stops after ten bytes, the most that 64 bits need; of the tenth byte only the lowest
bit has a place in a 64-bit run, and its other bits are dropped.
-/
namespace BytePatch.Varint

def encode (value : Nat) : Bytes :=
  if value < 128 then [UInt8.ofNat value]
  else UInt8.ofNat (value % 128 + 128) :: encode (value / 128)

/-- Number of bytes `encode` needs, without encoding. -/
def size (value : Nat) : Nat := if value < 128 then 1 else size (value / 128) + 1

/-- Longest encoding of a 64-bit number. -/
def maxSize : Nat := 10

/-- What a byte stands for as the group at `place` of a 64-bit number. -/
def group (place : Nat) (byte : UInt8) : Nat := (byte.toNat % 128) <<< (7 * place) % UInt64.size

/-- The number at the front of `bytes`, and the bytes after it. -/
def decode (bytes : Bytes) : Except BadFormat (Nat × Bytes) :=
  go maxSize 0 bytes
where
  /-- The value of the groups from `place` on, of which there may be as many as `left`. -/
  go : Nat → Nat → Bytes → Except BadFormat (Nat × Bytes)
    | 0, _, _ => .error .runOverflow
    | _ + 1, _, [] => .error .truncatedRun
    | left + 1, place, byte :: rest =>
      if byte.toNat < 128 then .ok (group place byte, rest)
      else match go left (place + 1) rest with
        | .error cause => .error cause
        | .ok (high, rest) => .ok (group place byte + high, rest)

theorem size_pos (value : Nat) : 0 < size value := by
  unfold size
  split <;> omega

theorem length_encode (value : Nat) : (encode value).length = size value := by
  fun_induction encode value with
  | case1 value h => unfold size; simp [h]
  | case2 value h ih => unfold size; simp [h, ih]

private theorem go_length {left place : Nat} {bytes rest : Bytes} {value : Nat}
    (h : decode.go left place bytes = .ok (value, rest)) : rest.length < bytes.length := by
  fun_induction decode.go left place bytes generalizing value with
  | case1 => cases h
  | case2 => cases h
  | case3 left place byte more hb => cases h; simp
  | case4 left place byte more hb cause he ih => cases h
  | case5 left place byte more hb high tail he ih =>
    cases h
    exact Nat.lt_succ_of_lt (ih he)

theorem length_of_decode {bytes rest : Bytes} {value : Nat}
    (h : decode bytes = .ok (value, rest)) : rest.length < bytes.length := go_length h

private theorem group_add_le (place : Nat) (byte : UInt8) :
    group place byte + 1 <<< (7 * place) ≤ 1 <<< (7 * (place + 1)) := by
  have hb : byte.toNat % 128 < 128 := Nat.mod_lt _ (by decide)
  unfold group
  rw [Nat.shiftLeft_eq, Nat.shiftLeft_eq, Nat.shiftLeft_eq, Nat.one_mul, Nat.one_mul]
  have h1 := Nat.mod_le (byte.toNat % 128 * 2 ^ (7 * place)) UInt64.size
  have h2 : 2 ^ (7 * (place + 1)) = 128 * 2 ^ (7 * place) := by
    rw [show 7 * (place + 1) = 7 * place + 7 by omega, Nat.pow_add]; omega
  have h3 : (byte.toNat % 128 + 1) * 2 ^ (7 * place) ≤ 128 * 2 ^ (7 * place) :=
    Nat.mul_le_mul_right _ (by omega)
  rw [Nat.add_mul, Nat.one_mul] at h3
  omega

private theorem group_last_le (byte : UInt8) : group 9 byte + 1 <<< (7 * 9) ≤ UInt64.size := by
  unfold group UInt64.size
  rw [Nat.shiftLeft_eq, Nat.shiftLeft_eq]
  omega

private theorem shift_le_of_le {place last : Nat} (h : place ≤ last) :
    1 <<< (7 * place) ≤ 1 <<< (7 * last) := by
  rw [Nat.shiftLeft_eq, Nat.shiftLeft_eq, Nat.one_mul, Nat.one_mul]
  exact Nat.pow_le_pow_right (by decide) (Nat.mul_le_mul_left 7 h)

theorem go_add_le {left place : Nat} {bytes rest : Bytes} {value : Nat}
    (hp : place + left = maxSize) (h : decode.go left place bytes = .ok (value, rest)) :
    value + 1 <<< (7 * place) ≤ UInt64.size := by
  simp only [maxSize] at hp
  fun_induction decode.go left place bytes generalizing value with
  | case1 => cases h
  | case2 => cases h
  | case3 left place byte more hb =>
    cases h
    by_cases hl : place = 9
    · subst hl; exact group_last_le byte
    · exact Nat.le_trans (group_add_le place byte)
        (Nat.le_trans (shift_le_of_le (show place + 1 ≤ 9 by omega)) (by decide))
  | case4 left place byte more hb cause he ih => cases h
  | case5 left place byte more hb high tail he ih =>
    cases h
    have h1 := group_add_le place byte
    have h2 := ih (by omega) he
    omega

/-- A run that reads fits into 64 bits. -/
theorem lt_of_decode {bytes rest : Bytes} {value : Nat}
    (h : decode bytes = .ok (value, rest)) : value < UInt64.size := by
  have := go_add_le rfl h
  omega

end BytePatch.Varint
