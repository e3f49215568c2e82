import ScriptLang.Text.Shapeless

/-!
# Quoted text

Messages show a text between double quotes. The quote, the backslash, tab,
newline, carriage return and NUL have short forms; a character without a shape
of its own is written as its code point in hexadecimal.
-/

namespace ScriptLang.Text

/-- The number in hexadecimal with small letters. -/
def hex (n : Nat) : String := String.ofList (Nat.toDigits 16 n)

/-- One character as it stands between the quotes. -/
def quotedChar (c : Char) : String :=
  if c = '"' then "\\\""
  else if c = '\\' then "\\\\"
  else if c = '\n' then "\\n"
  else if c = '\r' then "\\r"
  else if c = '\t' then "\\t"
  else if c.toNat = 0 then "\\0"
  else if isShapeless c then "\\u\x7b" ++ hex c.toNat ++ "\x7d"
  else c.toString

/-- The text between double quotes. -/
def quoted (s : String) : String :=
  "\"" ++ String.join (s.toList.map quotedChar) ++ "\""

end ScriptLang.Text
