import BytePatch.Wire.Encode
/-!
Reading encoded scripts, as a whole or item by item. A decoder is the bytes still to read and
whether the end or something unreadable has been met; after either it never reads on.
-/
namespace BytePatch

/-- One op at the front of `bytes`, or `none` for the end marker, and the bytes after it. -/
def Op.decode? (bytes : Bytes) : Except BadFormat (Option Op × Bytes) :=
  match bytes with
  | [] => .error .missingEnd
  | byte :: rest =>
    match Opcode.ofByte? byte with
    | none => .error (.unknownOpcode byte)
    | some .stop => .ok (none, rest)
    | some code =>
      match Varint.decode rest with
      | .error cause => .error cause
      | .ok (run, rest) =>
        if run = 0 then .error (.zeroRun code)
        else if code.hasPayload then
          if rest.length < run then .error (.shortPayload code run rest.length)
          else .ok (some (carrying code (rest.take run)), rest.drop run)
        else .ok (some (bare code run), rest)
where
  carrying (code : Opcode) (bytes : Bytes) : Op :=
    if code = .insert then .insert bytes else .delete bytes
  bare (code : Opcode) (run : Nat) : Op :=
    if code = .copy then .copy run else .skip run

/-- An op that was read takes at least one byte, and its run is bounded by what it takes. -/
theorem Op.length_of_decode? {bytes rest : Bytes} {op : Op}
    (h : Op.decode? bytes = .ok (some op, rest)) :
    rest.length < bytes.length ∧ op.weight ≤ UInt64.size * (bytes.length - rest.length) := by
  unfold Op.decode? at h
  split at h
  · cases h
  · next byte tail =>
    split at h
    · cases h
    · cases h
    · split at h
      · cases h
      · next run after hv =>
        have hlen := Varint.length_of_decode hv
        have hlt := Varint.lt_of_decode hv
        have key : ∀ k : Nat, 0 < k → UInt64.size ≤ UInt64.size * k := fun k hk =>
          Nat.le_mul_of_pos_right _ hk
        split at h
        · cases h
        · split at h
          · split at h
            · cases h
            · cases h
              have := key ((byte :: tail).length - (after.drop run).length)
                (by simp only [List.length_drop, List.length_cons]; omega)
              refine ⟨by simp only [List.length_drop, List.length_cons]; omega, ?_⟩
              refine Nat.le_trans ?_ this
              unfold Op.decode?.carrying
              split <;> simp only [Op.weight, Op.run, List.length_take] <;> omega
          · cases h
            have := key ((byte :: tail).length - rest.length)
              (by simp only [List.length_cons]; omega)
            refine ⟨by simp only [List.length_cons]; omega, Nat.le_trans ?_ this⟩
            unfold Op.decode?.bare
            split <;> simp only [Op.weight, Op.run] <;> omega

/-- All ops up to the end marker, which nothing may follow. -/
def Script.decode (bytes : Bytes) : Except BadFormat Script :=
  match h : Op.decode? bytes with
  | .error cause => .error cause
  | .ok (none, []) => .ok []
  | .ok (none, rest) => .error (.afterEnd rest.length)
  | .ok (some op, rest) =>
    have := (Op.length_of_decode? h).1
    (op :: ·) <$> decode rest
termination_by bytes.length

inductive Decoder where
  | reading (bytes : Bytes)
  | finished
  | failed
deriving DecidableEq

namespace Decoder

/-- The next op, or `none` at an end marker with nothing behind it. What follows a failure is
never read, since it may start in the middle of an op. -/
def next : Decoder → Except Fault (Option Op) × Decoder
  | .failed => (.error (.illegalState .decodeFailed), .failed)
  | .finished => (.ok none, .finished)
  | .reading bytes =>
    match Op.decode? bytes with
    | .error cause => (.error (.invalidFormat cause), .failed)
    | .ok (some op, rest) => (.ok (some op), .reading rest)
    | .ok (none, []) => (.ok none, .finished)
    | .ok (none, rest) => (.error (.invalidFormat (.afterEnd rest.length)), .failed)

/-- Bound on the runs still to come: no item is empty and no run takes more than
64 bits. -/
def rank : Decoder → Nat
  | .reading bytes => UInt64.size * bytes.length
  | _ => 0

theorem rank_next_some {decoder after : Decoder} {op : Op}
    (h : decoder.next = (.ok (some op), after)) : after.rank + op.weight ≤ decoder.rank := by
  cases decoder with
  | failed => simp [next] at h
  | finished => simp [next] at h
  | reading bytes =>
    simp only [next] at h
    split at h <;> cases h
    next rest hd =>
    obtain ⟨hlen, hw⟩ := Op.length_of_decode? hd
    simp only [rank]
    have : UInt64.size * rest.length + UInt64.size * (bytes.length - rest.length) =
        UInt64.size * bytes.length := by
      rw [← Nat.mul_add]; congr 1; omega
    omega

theorem rank_next_le (decoder : Decoder) : decoder.next.2.rank ≤ decoder.rank := by
  cases decoder with
  | failed => simp [next]
  | finished => simp [next]
  | reading bytes =>
    simp only [next]
    split
    · simp [rank]
    · next op rest hd =>
      exact Nat.mul_le_mul_left _ (Nat.le_of_lt (Op.length_of_decode? hd).1)
    · simp [rank]
    · simp [rank]

end Decoder

end BytePatch
