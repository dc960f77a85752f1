import BytePatch.Fault
/-!
One run of a single kind of edit. Each constructor carries just what its kind may carry, so a
payload always has the length of the run; that the run is neither empty nor beyond 64 bits is
`Op.Valid`.
-/
namespace BytePatch

/-- `copy` keeps bytes it reads, `skip` and `delete` pass over them, and `insert` adds bytes of its
own. `delete` remembers the bytes it passes over, `skip` only their number. -/
inductive Op where
  | copy (run : Nat)
  | skip (run : Nat)
  | delete (bytes : Bytes)
  | insert (bytes : Bytes)
deriving DecidableEq

namespace Op

/-- A `skip` is a delete too, one that cannot be undone. -/
def kind : Op → Kind
  | .copy _ => .copy
  | .skip _ | .delete _ => .delete
  | .insert _ => .insert

def run : Op → Nat
  | .copy run | .skip run => run
  | .delete bytes | .insert bytes => bytes.length

def payload? : Op → Option Bytes
  | .copy _ | .skip _ => none
  | .delete bytes | .insert bytes => some bytes

/-- Run lengths are positive and fit into 64 bits. -/
def Valid (op : Op) : Prop := 0 < op.run ∧ op.run < UInt64.size

instance (op : Op) : Decidable op.Valid := inferInstanceAs (Decidable (_ ∧ _))

/-- The op with the given kind, run and payload. A stray kind is noticed before an empty run,
and an empty run before a payload that does not fit. -/
def ofParts (kind : Kind) (run : Nat) (payload? : Option Bytes) : Except InvalidOp Op :=
  if kind = .stop then .error .sentinel
  else if run = 0 then .error (.zeroRun kind)
  else match kind, payload? with
    | .insert, none => .error .insertWithoutPayload
    | .copy, some _ => .error .copyWithPayload
    | .copy, none => .ok (.copy run)
    | .insert, some bytes => fitting .insert bytes
    | _, some bytes => fitting .delete bytes
    | _, none => .ok (.skip run)
where
  fitting (make : Bytes → Op) (bytes : Bytes) : Except InvalidOp Op :=
    if bytes.length = run then .ok (make bytes)
    else .error (.payloadLength kind bytes.length run)

/-- The op taken to have the effect of both, the first of them first, if they are of one kind.
A delete keeps its bytes only if both halves have theirs. -/
def merge? : Op → Op → Option Op
  | .copy a, .copy b => some (.copy (a + b))
  | .insert a, .insert b => some (.insert (a ++ b))
  | .delete a, .delete b => some (.delete (a ++ b))
  | .delete a, .skip b => some (.skip (a.length + b))
  | .skip a, .delete b => some (.skip (a + b.length))
  | .skip a, .skip b => some (.skip (a + b))
  | _, _ => none

/-- Without the bytes a delete remembers. -/
def forget : Op → Op
  | .delete bytes => .skip bytes.length
  | op => op

/-- The symbol of the kind and the run, as in `>4`. -/
def text (op : Op) : String := op.kind.symbol.toString ++ toString op.run

/-- How much of a queue's work an op stands for: its bytes, or one if it has none. -/
def weight (op : Op) : Nat := max 1 op.run

theorem weight_pos (op : Op) : 0 < op.weight := by
  unfold weight; omega

@[simp] theorem kind_forget (op : Op) : op.forget.kind = op.kind := by cases op <;> rfl

@[simp] theorem run_forget (op : Op) : op.forget.run = op.run := by cases op <;> rfl

theorem kind_ne_stop (op : Op) : op.kind ≠ .stop := by cases op <;> simp [kind]

theorem merge?_isSome_iff (a b : Op) : (a.merge? b).isSome ↔ a.kind = b.kind := by
  cases a <;> cases b <;> simp [merge?, kind]

theorem run_of_merge? {a b op : Op} (h : a.merge? b = some op) : op.run = a.run + b.run := by
  cases a <;> cases b <;> simp [merge?] at h <;> subst h <;> simp [run]

theorem kind_of_merge? {a b op : Op} (h : a.merge? b = some op) : op.kind = a.kind := by
  cases a <;> cases b <;> simp [merge?] at h <;> subst h <;> rfl

theorem weight_merge?_le {a b op : Op} (h : a.merge? b = some op) :
    op.weight ≤ a.weight + b.weight := by
  have := run_of_merge? h
  unfold weight
  omega

end Op

end BytePatch
