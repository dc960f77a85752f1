import BytePatch.Text.Unseen
/-!
A character in single quotes, with everything that would not show replaced by an escape.
-/
namespace BytePatch.Text

private def escaped (c : Char) : List Char :=
  "\\u\x7b".toList ++ Nat.toDigits 16 c.toNat ++ ['\x7d']

def quoted (c : Char) : String :=
  let body := match c with
    | '\x00' => "\\0".toList
    | '\t' => "\\t".toList
    | '\n' => "\\n".toList
    | '\r' => "\\r".toList
    | '\x27' => "\\'".toList
    | '\\' => "\\\\".toList
    | c => if isShown c then [c] else escaped c
  String.ofList (['\x27'] ++ body ++ ['\x27'])

end BytePatch.Text
