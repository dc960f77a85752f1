import BytePatch.Script
import BytePatch.Wire.Varint
/-!
Scripts as bytes: an opcode, the run and the payload of each op, then the end marker.
-/
namespace BytePatch

namespace Op

def opcode : Op → Opcode
  | .copy _ => .copy
  | .skip _ => .delete
  | .delete _ => .deleteWithPayload
  | .insert _ => .insert

def encode (op : Op) : Bytes :=
  op.opcode.toByte :: (Varint.encode op.run ++ op.payload?.getD [])

/-- Number of bytes `encode` gives, without encoding. -/
def encodedSize (op : Op) : Nat :=
  1 + Varint.size op.run + (op.payload?.map List.length).getD 0

theorem length_encode (op : Op) : op.encode.length = op.encodedSize := by
  cases op <;> simp [encode, encodedSize, payload?, Varint.length_encode] <;> omega

end Op

namespace Script

def encode (ops : Script) : Bytes := ops.flatMap Op.encode ++ [Opcode.stop.toByte]

/-- Number of bytes `encode` gives, without encoding. -/
def encodedSize (ops : Script) : Nat := sumOf Op.encodedSize ops + 1

end Script

end BytePatch
