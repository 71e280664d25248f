import LetPoly.Text.Invisible

/-! Text in double quotes, with escapes for the characters that would not show as themselves. -/

namespace LetPoly

def escapeChar (c : Char) : String :=
  match c with
  | '\x00' => "\\0"
  | '\t' => "\\t"
  | '\n' => "\\n"
  | '\r' => "\\r"
  | '\x22' => "\\\""
  | '\x5c' => "\\\\"
  | c =>
    if isInvisible c then "\\u\x7b" ++ String.ofList (Nat.toDigits 16 c.toNat) ++ "\x7d"
    else c.toString

def quoted (text : String) : String := "\"" ++ String.join (text.toList.map escapeChar) ++ "\""

end LetPoly
