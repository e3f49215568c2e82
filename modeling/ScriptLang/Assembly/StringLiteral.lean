/-!
# String literals of the assembler

A `.string` directive holds printable ASCII. A quote and a backslash are escaped,
newline, tab and carriage return have short forms, and every other byte of the
UTF-8 text is written as three octal digits.
-/

namespace ScriptLang.Assembly

/-- A byte as three octal digits behind a backslash. -/
def octal (b : UInt8) : List Char :=
  let n := b.toNat
  ['\\', Nat.digitChar (n / 64), Nat.digitChar (n / 8 % 8), Nat.digitChar (n % 8)]

def literalByte (b : UInt8) : List Char :=
  if b = 0x5C then ['\\', '\\']
  else if b = 0x22 then ['\\', '"']
  else if b = 0x0A then ['\\', 'n']
  else if b = 0x09 then ['\\', 't']
  else if b = 0x0D then ['\\', 'r']
  else if 0x20 ≤ b && b ≤ 0x7E then [Char.ofNat b.toNat]
  else octal b

/-- The text between the quotes of a `.string` directive. -/
def stringLiteral (s : String) : String :=
  String.ofList (s.toUTF8.toList.flatMap literalByte)

end ScriptLang.Assembly
