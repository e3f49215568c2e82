import ScriptLang.Assembly.StringLiteral
import Mathlib.Data.UInt

/-!
# String literals read back

The assembler reads a `.string` directive up to the first quote that is not escaped, and
takes up to three octal digits behind a backslash for one byte. What is written for a text
is read back as its UTF-8 bytes: a number always has its three digits, so no digit behind it
is taken for one more, and no escape reaches into the next byte.
-/

namespace ScriptLang.Assembly

/-- The byte that a letter behind a backslash stands for. -/
def letter? : Char → Option UInt8
  | '\\' => some 0x5C
  | '"' => some 0x22
  | 'n' => some 0x0A
  | 't' => some 0x09
  | 'r' => some 0x0D
  | _ => none

def isOctalDigit (c : Char) : Bool := '0' ≤ c && c ≤ '7'

/-- The octal digits at the head of a text, at most three. -/
def octalRun (text : List Char) : List Char := (text.take 3).takeWhile isOctalDigit

/-- The byte that octal digits stand for; what is above its eight bits is dropped. -/
def octalByte (digits : List Char) : UInt8 :=
  .ofNat (digits.foldl (fun n c => 8 * n + (c.toNat - '0'.toNat)) 0)

/-- The byte of the escape whose backslash stands before a text, and how many characters of
the text belong to it. -/
def escape? (text : List Char) : Option (UInt8 × Nat) :=
  match octalRun text with
  | [] => (text.head?.bind letter?).map (·, 1)
  | digits => some (octalByte digits, digits.length)

/-- The bytes of a `.string` directive as the assembler reads them, from behind its opening
quote to the quote that closes it, and what is left behind that. -/
def readString : List Char → Option (List UInt8 × List Char)
  | [] => none
  | c :: text =>
    if c = '"' then some ([], text)
    else if c = '\\' then
      (escape? text).bind fun e => (readString (text.drop e.2)).map (Prod.map (e.1 :: ·) id)
    else (readString text).map (Prod.map (String.utf8EncodeChar c ++ ·) id)
  termination_by text => text.length

/-- A quote stands in the text that no backslash escapes. -/
def hasBareQuote : List Char → Bool
  | '"' :: _ => true
  | '\\' :: _ :: text => hasBareQuote text
  | _ :: text => hasBareQuote text
  | [] => false

def isPrintable (c : Char) : Bool := ' ' ≤ c && c ≤ '~'

/-- The ways in which a byte is written. -/
inductive Writes (b : UInt8) : List Char → Prop
  | plain {c : Char} : isPrintable c → c ≠ '"' → c ≠ '\\' → String.utf8EncodeChar c = [b] →
    Writes b [c]
  | letter {c : Char} : isPrintable c → isOctalDigit c = false → letter? c = some b →
    Writes b ['\\', c]
  | octal {c d e : Char} : isOctalDigit c → isOctalDigit d → isOctalDigit e →
    octalByte [c, d, e] = b → Writes b ['\\', c, d, e]

theorem forall_byte {P : UInt8 → Prop} (h : ∀ n < 256, P (.ofNat n)) (b : UInt8) : P b :=
  UInt8.ofNat_toNat (x := b) ▸ h b.toNat b.toNat_lt

theorem octal_digits : ∀ b : UInt8,
    isOctalDigit (Nat.digitChar (b.toNat / 64)) ∧ isOctalDigit (Nat.digitChar (b.toNat / 8 % 8)) ∧
      isOctalDigit (Nat.digitChar (b.toNat % 8)) ∧ octalByte (octal b).tail = b :=
  forall_byte (by decide +kernel)

theorem printable_byte : ∀ b : UInt8, (0x20 ≤ b && b ≤ 0x7E) ∧ b ≠ 0x22 ∧ b ≠ 0x5C →
    isPrintable (Char.ofNat b.toNat) ∧ Char.ofNat b.toNat ≠ '"' ∧ Char.ofNat b.toNat ≠ '\\' ∧
      String.utf8EncodeChar (Char.ofNat b.toNat) = [b] :=
  forall_byte (by decide +kernel)

theorem writes_literalByte (b : UInt8) : Writes b (literalByte b) := by
  unfold literalByte
  split_ifs with hb hq hn ht hr hp
  · exact hb ▸ .letter rfl rfl rfl
  · exact hq ▸ .letter rfl rfl rfl
  · exact hn ▸ .letter rfl rfl rfl
  · exact ht ▸ .letter rfl rfl rfl
  · exact hr ▸ .letter rfl rfl rfl
  · obtain ⟨hc, hcq, hcb, hutf⟩ := printable_byte b ⟨hp, hq, hb⟩
    exact .plain hc hcq hcb hutf
  · obtain ⟨hc, hd, he, hvalue⟩ := octal_digits b
    exact .octal hc hd he hvalue

theorem isPrintable_of_isOctalDigit {c : Char} (h : isOctalDigit c) : isPrintable c := by
  simp only [isOctalDigit, isPrintable, Bool.and_eq_true, decide_eq_true_eq] at h ⊢
  have hlow : ' ' ≤ '0' := by decide
  have hhigh : '7' ≤ '~' := by decide
  exact ⟨Char.le_trans hlow h.1, Char.le_trans h.2 hhigh⟩

theorem ne_of_isOctalDigit {c q : Char} (h : isOctalDigit c) (hq : isOctalDigit q = false) :
    c ≠ q := by
  rintro rfl
  rw [hq] at h
  cases h

namespace Writes

variable {b : UInt8} {written text : List Char}

theorem printable (h : Writes b written) : ∀ c ∈ written, isPrintable c := by
  cases h with
  | plain hc => simpa using hc
  | letter hc => simpa using ⟨rfl, hc⟩
  | octal hc hd he =>
    simpa using ⟨rfl, isPrintable_of_isOctalDigit hc, isPrintable_of_isOctalDigit hd,
      isPrintable_of_isOctalDigit he⟩

/-- What is written brings no quote that is not escaped, and no backslash that would escape
what comes next. -/
theorem hasBareQuote_append (h : Writes b written) :
    hasBareQuote (written ++ text) = hasBareQuote text := by
  cases h with
  | plain _ hq hb => simp [hasBareQuote, hb]
  | letter => simp [hasBareQuote]
  | octal hc hd he _ =>
    have hdq := ne_of_isOctalDigit hd (q := '"') rfl
    have hdb := ne_of_isOctalDigit hd (q := '\\') rfl
    have heq := ne_of_isOctalDigit he (q := '"') rfl
    have heb := ne_of_isOctalDigit he (q := '\\') rfl
    simp [hasBareQuote, hdb, heb]

theorem readString_append (h : Writes b written) :
    readString (written ++ text) = (readString text).map (Prod.map (b :: ·) id) := by
  cases h with
  | plain _ hq hb hutf => simp [readString, hq, hb, hutf]
  | @letter c _ hdigit hletter =>
    have he : escape? (c :: text) = some (b, 1) := by
      simp [escape?, octalRun, hdigit, hletter]
    simp [readString, he]
  | @octal c d e hc hd he hvalue =>
    have hrun : octalRun (c :: d :: e :: text) = [c, d, e] := by
      simp [octalRun, hc, hd, he]
    have he : escape? (c :: d :: e :: text) = some (b, 3) := by
      simp [escape?, hrun, hvalue]
    simp [readString, he]

end Writes

theorem readString_flatMap (bytes : List UInt8) (rest : List Char) :
    readString (bytes.flatMap literalByte ++ '"' :: rest) = some (bytes, rest) := by
  induction bytes with
  | nil => simp [readString]
  | cons b bytes ih =>
    rw [List.flatMap_cons, List.append_assoc, (writes_literalByte b).readString_append, ih]
    rfl

theorem hasBareQuote_flatMap (bytes : List UInt8) :
    hasBareQuote (bytes.flatMap literalByte) = false := by
  induction bytes with
  | nil => rfl
  | cons b bytes ih => rw [List.flatMap_cons, (writes_literalByte b).hasBareQuote_append, ih]

/-- A literal is printable ASCII, no quote in it closes the directive, and the directive is
read as the UTF-8 bytes of the text, whatever stands behind it. -/
theorem readString_stringLiteral (s : String) :
    (∀ c ∈ (stringLiteral s).toList, isPrintable c) ∧
    hasBareQuote (stringLiteral s).toList = false ∧
    ∀ rest, readString ((stringLiteral s).toList ++ '"' :: rest) =
      some (s.toUTF8.toList, rest) := by
  rw [stringLiteral, String.toList_ofList]
  refine ⟨fun c hc => ?_, hasBareQuote_flatMap _, readString_flatMap _⟩
  obtain ⟨b, -, hc⟩ := List.mem_flatMap.mp hc
  exact (writes_literalByte b).printable c hc

/-- A digit behind a byte in octal, and an escaped backslash before a letter and the end. -/
example : (stringLiteral "\x017\\n\"é\\").toList = "\\0017\\\\n\\\"\\303\\251\\\\".toList := by
  decide +kernel

end ScriptLang.Assembly
