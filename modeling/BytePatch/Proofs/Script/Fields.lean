import Mathlib.Data.List.Range
import BytePatch.Proofs.Stage.Pieces
import BytePatch.Stage.Compact
import BytePatch.Stage.Pointwise

/-! Ops as records whose parts nothing holds together, and what is done to such records without any
check. Whatever is done to an op is done to its record alike. -/
namespace BytePatch

/-- The parts of an op. -/
structure Fields where
  kind : Kind
  run : Nat
  payload? : Option Bytes
deriving DecidableEq

def Op.fields (op : Op) : Fields := ⟨op.kind, op.run, op.payload?⟩

namespace Fields

def copy (run : Nat) : Fields := ⟨.copy, run, none⟩

def skip (run : Nat) : Fields := ⟨.delete, run, none⟩

def delete (bytes : Bytes) : Fields := ⟨.delete, bytes.length, some bytes⟩

def insert (bytes : Bytes) : Fields := ⟨.insert, bytes.length, some bytes⟩

/-- Only a delete loses its bytes. -/
def forget (fields : Fields) : Fields :=
  if fields.kind = .delete then skip fields.run else fields

/-- The record of both. -/
def merge? (a b : Fields) : Option Fields :=
  if a.kind = b.kind then
    some ⟨a.kind, a.run + b.run,
      match a.payload?, b.payload? with
      | some x, some y => some (x ++ y)
      | _, _ => none⟩
  else none

def combine? (a b : Fields) : Option Fields :=
  if a.kind = b.kind then a.merge? b
  else if (a.kind = .delete ∧ b.kind = .insert ∨ a.kind = .insert ∧ b.kind = .delete) ∧
      a.payload?.isSome ∧ a.payload? = b.payload? then some (copy a.run)
  else none

/-- The multiples of a size below a bound. -/
def starts (size bound : Nat) : List Nat := List.range' 0 ((bound + size - 1) / size) size

/-- The pieces that start at each multiple of a size. -/
def split (size : Nat) (fields : Fields) : List Fields :=
  if fields.run ≤ size ∨ fields.kind = .copy then [fields]
  else
    match fields.payload? with
    | some bytes => (starts size fields.run).map fun start =>
      let piece := bytes.extract start (min (start + size) fields.run)
      if fields.kind = .insert then insert piece else delete piece
    | none => (starts size fields.run).map fun start => skip (min (fields.run - start) size)

/-- The record that takes one back, if it remembers what it needs. -/
def undo (fields : Fields) : Except Fault Fields :=
  match fields.kind, fields.payload? with
  | .delete, some bytes => .ok (insert bytes)
  | .delete, none => .error (.missingDeletePayload fields.run)
  | .insert, some bytes => .ok (delete bytes)
  | .insert, none => .error (.invalidOp .insertWithoutPayload)
  | .stop, _ | .copy, _ => .ok fields

end Fields

/-- What nothing but the checks on an op's parts makes sure of. -/
structure Fields.Shaped (fields : Fields) : Prop where
  kind : fields.kind ≠ .stop
  run : fields.run ≠ 0
  payload : ∀ bytes ∈ fields.payload?, bytes.length = fields.run
  insert : fields.kind = .insert → fields.payload?.isSome
  copy : fields.kind = .copy → fields.payload? = none

/-- The record passes the checks that ops are put together with. -/
def Fields.Accepted (fields : Fields) : Prop :=
  fields.run < UInt64.size ∧ ∃ op, Op.ofParts fields.kind fields.run fields.payload? = .ok op

theorem Fields.accepted_iff (fields : Fields) :
    fields.Accepted ↔ fields.run < UInt64.size ∧ fields.Shaped := by
  obtain ⟨kind, run, payload?⟩ := fields
  refine and_congr_right fun _ => ?_
  constructor
  · rintro ⟨op, hop⟩
    unfold Op.ofParts Op.ofParts.fitting at hop
    split_ifs at hop with hkind hrun
    refine ⟨hkind, hrun, fun bytes hbytes => ?_, ?_, ?_⟩
    · by_contra hlength
      cases kind <;> simp_all
    · cases kind <;> cases payload? <;> simp_all
    · cases kind <;> cases payload? <;> simp_all
  · rintro ⟨hkind, hrun, hpayload, hinsert, hcopy⟩
    simp only [Op.ofParts, Op.ofParts.fitting, if_neg hkind, if_neg hrun]
    cases kind <;> cases payload? <;> simp_all

namespace Op

theorem shaped_fields {op : Op} (h : 0 < op.run) : op.fields.Shaped := by
  refine ⟨op.kind_ne_stop, Nat.ne_of_gt h, ?_, ?_, ?_⟩ <;> cases op <;>
    simp [fields, kind, run, payload?]

theorem accepted_fields_iff (op : Op) : op.fields.Accepted ↔ op.Valid := by
  rw [Fields.accepted_iff]
  constructor
  · rintro ⟨hlt, hshaped⟩
    exact ⟨Nat.pos_of_ne_zero hshaped.run, hlt⟩
  · rintro ⟨hpos, hlt⟩
    exact ⟨hlt, shaped_fields hpos⟩

theorem forget_fields (op : Op) : op.fields.forget = op.forget.fields := by cases op <;> rfl

theorem merge?_fields (a b : Op) : a.fields.merge? b.fields = (a.merge? b).map fields := by
  cases a <;> cases b <;> simp [Fields.merge?, fields, kind, run, payload?, merge?]

theorem combine?_fields (a b : Op) : a.fields.combine? b.fields = (a.combine? b).map fields := by
  have hmerge := merge?_fields a b
  cases a <;> cases b <;> first
    | exact hmerge
    | rfl
    | simp only [Fields.combine?, fields, kind, payload?, combine?]
      split_ifs <;> simp_all [Fields.copy, fields, kind, run, payload?]

theorem undo_fields (op : Op) : op.fields.undo = fields <$> op.undo := by cases op <;> rfl

end Op

namespace Fields
variable {size : Nat}

private theorem starts_zero (hs : 0 < size) : starts size 0 = [] := by
  have hcount : (0 + size - 1) / size = 0 := Nat.div_eq_of_lt (by omega)
  rw [starts, hcount]
  rfl

private theorem starts_eq (hs : 0 < size) {bound : Nat} (hb : 0 < bound) :
    starts size bound = 0 :: (starts size (bound - size)).map (size + ·) := by
  have hcount : (bound + size - 1) / size = (bound - size + size - 1) / size + 1 := by
    by_cases hle : bound ≤ size
    · have hfirst : bound + size - 1 = bound - 1 + size := by omega
      rw [hfirst, Nat.add_div_right _ hs, Nat.div_eq_of_lt (by omega),
        Nat.sub_eq_zero_of_le hle, Nat.div_eq_of_lt (by omega)]
    · have hfirst : bound + size - 1 = bound - size + size - 1 + size := by omega
      rw [hfirst, Nat.add_div_right _ hs]
  rw [starts, hcount, List.range'_succ, starts, List.map_add_range', Nat.add_comm]

private theorem map_starts_runs (hs : 0 < size) (run : Nat) :
    (starts size run).map (fun start => min (run - start) size) = Chunk.runsOf size run := by
  induction run using Nat.strongRecOn with
  | ind run ih =>
    rw [Chunk.runsOf]
    by_cases hrun : run = 0
    · rw [if_pos hrun, hrun, starts_zero hs]
      rfl
    · have hrest : run - min (max 1 size) run = run - size := by omega
      have htail := ih (run - size) (by omega)
      rw [if_neg hrun, starts_eq hs (Nat.pos_of_ne_zero hrun), hrest, ← htail, List.map_cons,
        List.map_map]
      refine congrArg₂ List.cons (by omega) (List.map_congr_left fun start _ => ?_)
      simp only [Function.comp_apply]
      omega

private theorem map_starts_blocks (hs : 0 < size) (bytes : Bytes) :
    (starts size bytes.length).map
        (fun start => bytes.extract start (min (start + size) bytes.length)) =
      blocksOf size bytes := by
  generalize hlength : bytes.length = length
  induction length using Nat.strongRecOn generalizing bytes with
  | ind length ih =>
    subst hlength
    by_cases hne : bytes = []
    · subst hne
      rw [List.length_nil, starts_zero hs, blocksOf]
      rfl
    · have hpos := List.length_pos_iff.2 hne
      have htail := ih (bytes.length - size) (by omega) (bytes.drop size) List.length_drop
      rw [blocksOf_eq hs hne, starts_eq hs hpos, ← htail, List.map_cons, List.map_map]
      refine congrArg₂ List.cons ?_ (List.map_congr_left fun start _ => ?_)
      · have htake : min (0 + size) bytes.length - 0 = min size bytes.length := by omega
        rw [List.extract_eq_take_drop, List.drop_zero, htake, ← List.take_take, List.take_length]
      · have htake : min (size + start + size) bytes.length - (size + start) =
            min (start + size) (bytes.length - size) - start := by
          omega
        simp only [Function.comp_apply, List.extract_eq_take_drop, List.drop_drop, htake]

end Fields

namespace Op

theorem split_fields {size : Nat} (hs : 0 < size) (op : Op) :
    op.fields.split size = (Chunk.pieces size op).map fields := by
  unfold Fields.split Chunk.pieces
  by_cases hrun : op.run ≤ size
  · rw [if_pos (.inl hrun), if_pos hrun]
    rfl
  · rw [if_neg hrun]
    cases op with
    | copy run =>
      rw [if_pos (.inr rfl)]
      rfl
    | skip run =>
      rw [if_neg (by simpa [fields, kind] using hrun)]
      simp only [← Fields.map_starts_runs hs, List.map_map]
      rfl
    | delete bytes =>
      rw [if_neg (by simpa [fields, kind] using hrun)]
      simp only [← Fields.map_starts_blocks hs, List.map_map]
      rfl
    | insert bytes =>
      rw [if_neg (by simpa [fields, kind] using hrun)]
      simp only [← Fields.map_starts_blocks hs, List.map_map]
      rfl

end Op

end BytePatch
