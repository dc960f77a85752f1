import BytePatch.Kind
/-!
JSON text read into values. Strings keep how each of their characters was written, since a raw
control character or half of a surrogate pair is allowed in some places and not in others.
-/
namespace BytePatch.Json

inductive Piece where
  | plain (char : Char)
  | escaped (char : Char)
  /-- A 16-bit unit written as four hexadecimal digits. -/
  | unit (code : Nat)
deriving DecidableEq

/-- Of a number only matters whether it is written as a natural number, and which. -/
inductive Value where
  | null
  | bool (value : Bool)
  | number (natural? : Option Nat)
  | string (pieces : List Piece)
  | array (elements : List Value)
  | object (members : List (List Piece × Value))

def isBlank (c : Char) : Bool := c = ' ' || c = '\t' || c = '\n' || c = '\r'

def skipBlanks (text : List Char) : List Char := text.dropWhile isBlank

private def hexDigit? (c : Char) : Option Nat :=
  if '0' ≤ c ∧ c ≤ '9' then some (c.toNat - '0'.toNat)
  else if 'a' ≤ c ∧ c ≤ 'f' then some (c.toNat - 'a'.toNat + 10)
  else if 'A' ≤ c ∧ c ≤ 'F' then some (c.toNat - 'A'.toNat + 10)
  else none

private def unit? (a b c d : Char) : Option Nat := do
  return (((← hexDigit? a) * 16 + (← hexDigit? b)) * 16 + (← hexDigit? c)) * 16 + (← hexDigit? d)

/-- What a character stands for after a backslash. -/
private def escape? : Char → Option Char
  | '"' => some '"'
  | '\\' => some '\\'
  | '/' => some '/'
  | 'b' => some '\x08'
  | 'f' => some '\x0c'
  | 'n' => some '\n'
  | 'r' => some '\r'
  | 't' => some '\t'
  | _ => none

/-- The rest of a string after its opening quote, and the text after its closing one. -/
def stringRest : List Char → Option (List Piece × List Char)
  | [] => none
  | '"' :: text => some ([], text)
  | '\\' :: 'u' :: a :: b :: c :: d :: text =>
    match unit? a b c d, stringRest text with
    | some code, some (pieces, text) => some (.unit code :: pieces, text)
    | _, _ => none
  | '\\' :: c :: text =>
    match escape? c, stringRest text with
    | some char, some (pieces, text) => some (.escaped char :: pieces, text)
    | _, _ => none
  | c :: text =>
    match stringRest text with
    | some (pieces, text) => some (.plain c :: pieces, text)
    | none => none

/-- The digits at the front of a text, of which there has to be one. -/
private def digits? (text : List Char) : Option (List Char × List Char) :=
  match text.takeWhile Char.isDigit with
  | [] => none
  | digits => some (digits, text.dropWhile Char.isDigit)

/-- An integer has no zero in front. -/
private def integer? (text : List Char) : Option (List Char × List Char) :=
  match digits? text with
  | some ('0' :: _ :: _, _) => none
  | integer => integer

private def fraction? : List Char → Option (Bool × List Char)
  | '.' :: text => (digits? text).map fun rest => (true, rest.2)
  | text => some (false, text)

private def exponent? (text : List Char) : Option (Bool × List Char) :=
  match text with
  | e :: text' =>
    if e = 'e' ∨ e = 'E' then
      let text' := match text' with
        | '+' :: text' | '-' :: text' => text'
        | text' => text'
      (digits? text').map fun rest => (true, rest.2)
    else some (false, text)
  | [] => some (false, [])

/-- A number at the front of a text. It is natural if it has no sign, fraction or exponent. -/
def number? (text : List Char) : Option (Value × List Char) := do
  let (signed, text) := match text with
    | '-' :: text => (true, text)
    | text => (false, text)
  let (digits, text) ← integer? text
  let (broken, text) ← fraction? text
  let (scaled, text) ← exponent? text
  let natural? := if signed || broken || scaled then none
    else some (digits.foldl (fun n d => n * 10 + (d.toNat - '0'.toNat)) 0)
  return (.number natural?, text)

mutual

/-- A value at the front of a text after blanks, and the text behind it. Every two calls use up
a character, so twice the length of the text is fuel enough. -/
def valueWith : Nat → List Char → Option (Value × List Char)
  | 0, _ => none
  | fuel + 1, text =>
    match skipBlanks text with
    | 'n' :: 'u' :: 'l' :: 'l' :: text => some (.null, text)
    | 't' :: 'r' :: 'u' :: 'e' :: text => some (.bool true, text)
    | 'f' :: 'a' :: 'l' :: 's' :: 'e' :: text => some (.bool false, text)
    | '"' :: text => (stringRest text).map fun (pieces, text) => (.string pieces, text)
    | '[' :: text =>
      match skipBlanks text with
      | ']' :: text => some (.array [], text)
      | text => (elementsWith fuel text).map fun (elements, text) => (.array elements, text)
    | '\x7b' :: text =>
      match skipBlanks text with
      | '\x7d' :: text => some (.object [], text)
      | text => (membersWith fuel text).map fun (members, text) => (.object members, text)
    | text => number? text

/-- Elements up to the closing bracket. -/
def elementsWith : Nat → List Char → Option (List Value × List Char)
  | 0, _ => none
  | fuel + 1, text =>
    match valueWith fuel text with
    | none => none
    | some (value, text) =>
      match skipBlanks text with
      | ']' :: text => some ([value], text)
      | ',' :: text => (elementsWith fuel text).map fun (values, text) => (value :: values, text)
      | _ => none

/-- Members up to the closing brace. -/
def membersWith : Nat → List Char → Option (List (List Piece × Value) × List Char)
  | 0, _ => none
  | fuel + 1, text =>
    match skipBlanks text with
    | '"' :: text =>
      match stringRest text with
      | none => none
      | some (key, text) =>
        match skipBlanks text with
        | ':' :: text =>
          match valueWith fuel text with
          | none => none
          | some (value, text) =>
            match skipBlanks text with
            | '\x7d' :: text => some ([(key, value)], text)
            | ',' :: text =>
              (membersWith fuel text).map fun (members, text) => ((key, value) :: members, text)
            | _ => none
        | _ => none
    | _ => none

end

/-- A value at the front of a text, and the text behind it. -/
def value? (text : List Char) : Option (Value × List Char) :=
  valueWith (2 * text.length + 2) text

def isControl (c : Char) : Bool := c.toNat < 0x20

def Piece.isClean : Piece → Bool
  | .plain c => !isControl c
  | _ => true

mutual

/-- No string in the value holds a raw control character. -/
def Value.isClean : Value → Bool
  | .string pieces => pieces.all Piece.isClean
  | .array elements => elementsClean elements
  | .object members => membersClean members
  | _ => true

def elementsClean : List Value → Bool
  | [] => true
  | value :: values => value.isClean && elementsClean values

def membersClean : List (List Piece × Value) → Bool
  | [] => true
  | (key, value) :: members => key.all Piece.isClean && value.isClean && membersClean members

end

private def isHigh (code : Nat) : Bool := 0xd800 ≤ code && code < 0xdc00

private def isLow (code : Nat) : Bool := 0xdc00 ≤ code && code < 0xe000

private def paired (high low : Nat) : Char :=
  Char.ofNat (0x10000 + (high - 0xd800) * 0x400 + (low - 0xdc00))

/-- The text of a string in which neither raw control characters nor halves of pairs are
allowed. -/
def text? : List Piece → Option (List Char)
  | [] => some []
  | .plain c :: pieces => if isControl c then none else (c :: ·) <$> text? pieces
  | .escaped c :: pieces => (c :: ·) <$> text? pieces
  | .unit high :: .unit low :: pieces =>
    if isHigh high && isLow low then (paired high low :: ·) <$> text? pieces
    else if isHigh high || isLow high then none
    else (Char.ofNat high :: ·) <$> text? (.unit low :: pieces)
  | .unit code :: pieces =>
    if isHigh code || isLow code then none else (Char.ofNat code :: ·) <$> text? pieces

/-- Three bytes for a code that needs three. -/
private def threeBytes (code : Nat) : Bytes :=
  [UInt8.ofNat (0xe0 + code / 4096), UInt8.ofNat (0x80 + code / 64 % 64),
    UInt8.ofNat (0x80 + code % 64)]

/-- The bytes of a string in which everything is allowed. Half of a pair takes the three bytes
that a character with its number would. -/
def bytes : List Piece → Bytes
  | [] => []
  | .plain c :: pieces | .escaped c :: pieces => String.utf8EncodeChar c ++ bytes pieces
  | .unit high :: .unit low :: pieces =>
    if isHigh high && isLow low then String.utf8EncodeChar (paired high low) ++ bytes pieces
    else if isHigh high || isLow high then threeBytes high ++ bytes (.unit low :: pieces)
    else String.utf8EncodeChar (Char.ofNat high) ++ bytes (.unit low :: pieces)
  | .unit code :: pieces =>
    if isHigh code || isLow code then threeBytes code ++ bytes pieces
    else String.utf8EncodeChar (Char.ofNat code) ++ bytes pieces

end BytePatch.Json
