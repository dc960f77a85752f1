/-!
First bytes of the items of an encoded script, and what has to follow each.
-/
namespace BytePatch

/-- A delete has two opcodes, so that a reader knows whether the deleted bytes follow. -/
inductive Opcode where
  | stop
  | delete
  | insert
  | copy
  | deleteWithPayload
deriving DecidableEq

namespace Opcode

def toByte : Opcode → UInt8
  | .stop => 0
  | .delete => 1
  | .insert => 2
  | .copy => 3
  | .deleteWithPayload => 4

def ofByte? : UInt8 → Option Opcode
  | 0 => some .stop
  | 1 => some .delete
  | 2 => some .insert
  | 3 => some .copy
  | 4 => some .deleteWithPayload
  | _ => none

def name : Opcode → String
  | .stop => "Stop"
  | .delete => "Delete"
  | .insert => "Insert"
  | .copy => "Copy"
  | .deleteWithPayload => "DeleteWithPayload"

/-- A run length follows every opcode but the end marker. -/
def hasRun (code : Opcode) : Bool := code != .stop

/-- As many payload bytes as the run says follow the run length. -/
def hasPayload : Opcode → Bool
  | .insert | .deleteWithPayload => true
  | _ => false

theorem ofByte?_toByte (code : Opcode) : ofByte? code.toByte = some code := by
  cases code <;> rfl

theorem toByte_of_ofByte? {byte : UInt8} {code : Opcode} (h : ofByte? byte = some code) :
    code.toByte = byte := by
  unfold ofByte? at h
  split at h <;> cases h <;> rfl

end Opcode

end BytePatch
