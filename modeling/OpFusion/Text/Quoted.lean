import OpFusion.Text.CharacterClass

/-!
# Quoted text

`quoted` writes a text between double quotes so that every character can be seen: quotes,
backslashes and the common controls get a short escape, and a character that would not be seen as
one of its own is written by its code point in hexadecimal.
-/

namespace OpFusion.Text

/-- One character as it stands between the quotes. A single quote stands for itself. -/
def escaped (c : Char) : String :=
  match c with
  | '"' => "\\\""
  | '\\' => "\\\\"
  | '\t' => "\\t"
  | '\n' => "\\n"
  | '\r' => "\\r"
  | '\x00' => "\\0"
  | _ =>
    if isDistinct c then c.toString
    else "\\u\x7b" ++ String.ofList (Nat.toDigits 16 c.toNat) ++ "\x7d"

/-- The text between double quotes. -/
def quoted (s : String) : String := "\"" ++ String.join (s.toList.map escaped) ++ "\""

end OpFusion.Text
