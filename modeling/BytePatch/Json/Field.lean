import BytePatch.Json.Value
/-!
Values of the sorts that records have in their fields, and records themselves, written as objects
with the fields in any order or as arrays with the fields in theirs.
-/
namespace BytePatch.Json

/-- A string without raw control characters and halves of pairs. -/
def Value.text? : Value → Option String
  | .string pieces => String.ofList <$> Json.text? pieces
  | _ => none

/-- A natural number of 64 bits. -/
def Value.word? : Value → Option Nat
  | .number (some n) => if n < UInt64.size then some n else none
  | _ => none

def Value.byte? : Value → Option UInt8
  | .number (some n) => if n < 256 then some (UInt8.ofNat n) else none
  | _ => none

def Value.bool? : Value → Option Bool
  | .bool b => some b
  | _ => none

/-- One of several names, by itself or as the only key of an object that maps it to null. -/
def Value.name? : Value → Option String
  | .object [(key, .null)] => String.ofList <$> Json.text? key
  | value => value.text?

/-- An array of bytes, or the bytes of a string. -/
def Value.bytes? : Value → Option Bytes
  | .array elements => elements.mapM Value.byte?
  | .string pieces => some (bytes pieces)
  | _ => none

/-- The values of the named fields, `none` for a field that is absent. Keys with other names are
passed over, but no field may come twice. -/
def fields? (names : List String) (members : List (List Piece × Value)) :
    Option (List (Option Value)) :=
  members.foldlM put (names.map fun _ => none)
where
  put (found : List (Option Value)) (member : List Piece × Value) :
      Option (List (Option Value)) := do
    let key ← String.ofList <$> Json.text? member.1
    match names.idxOf? key with
    | none => if member.2.isClean then some found else none
    | some place =>
      if (found[place]?.join).isSome then none else some (found.set place (some member.2))

/-- The named fields of a record. An array may stop early but not go on. -/
def Value.record? (names : List String) : Value → Option (List (Option Value))
  | .object members => fields? names members
  | .array elements =>
    if elements.length ≤ names.length then
      some (elements.map some ++ List.replicate (names.length - elements.length) none)
    else none
  | _ => none

end BytePatch.Json
