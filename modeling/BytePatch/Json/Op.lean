import BytePatch.Json.Field
import BytePatch.Op
/-!
Ops as JSON: objects with a kind, a run and a payload, or arrays of the three.
-/
namespace BytePatch

inductive JsonFault where
  | malformed
  | invalidOp (cause : InvalidOp)
deriving DecidableEq

namespace Json

/-- Nothing but blanks follows. -/
def isEnd (text : List Char) : Bool := (skipBlanks text).isEmpty

private def kind? (value : Value) : Option Kind := value.name?.bind Kind.ofName?

/-- A payload that is null is none. -/
private def payload? : Value → Option (Option Bytes)
  | .null => some none
  | value => some <$> value.bytes?

private def parts? (value : Value) : Option (Kind × Nat × Option Bytes) := do
  match value, ← value.record? ["kind", "run", "payload"] with
  | .array _, [some kind, some run, some payload] =>
    return (← kind? kind, ← run.word?, ← payload? payload)
  | .object _, [some kind, some run, some payload] =>
    return (← kind? kind, ← run.word?, ← payload? payload)
  | .object _, [some kind, some run, none] => return (← kind? kind, ← run.word?, none)
  | _, _ => none

end Json

/-- The kind that a text names. -/
def Kind.ofJson? (text : String) : Option Kind := do
  let (value, rest) ← Json.value? text.toList
  if Json.isEnd rest then Json.kind? value else none

/-- The op that a text describes. Whether its parts make an op is settled before what follows it
is looked at. -/
def Op.ofJson (text : String) : Except JsonFault Op :=
  match (Json.value? text.toList).bind fun (value, rest) => (·, rest) <$> Json.parts? value with
  | none => .error .malformed
  | some ((kind, run, payload?), rest) =>
    match Op.ofParts kind run payload? with
    | .error cause => .error (.invalidOp cause)
    | .ok op => if Json.isEnd rest then .ok op else .error .malformed

def Op.toJson (op : Op) : String :=
  let payload := match op.payload? with
    | none => "null"
    | some bytes => "[" ++ ",".intercalate (bytes.map fun byte => toString byte.toNat) ++ "]"
  "\x7b\"kind\":\"" ++ op.kind.name ++ "\",\"run\":" ++ toString op.run ++ ",\"payload\":" ++
    payload ++ "\x7d"

end BytePatch
