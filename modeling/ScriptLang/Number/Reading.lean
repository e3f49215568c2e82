import ScriptLang.Number.Binary64

/-!
# Reading numbers

Integers are a sign and digits, within 64 bits. Floats are a sign and a decimal
with optional point and exponent, or a word for infinity or NaN; the value is the
nearest float.
-/

namespace ScriptLang.Number

/-- The value of decimal digits; none unless all are digits and there is one. -/
def digits? (cs : List Char) : Option Nat :=
  if cs.isEmpty || !cs.all Char.isDigit then none
  else some (cs.foldl (fun n c => 10 * n + (c.toNat - '0'.toNat)) 0)

/-- A leading sign, true for minus, and what follows. -/
def signed : List Char → Bool × List Char
  | '-' :: cs => (true, cs)
  | '+' :: cs => (false, cs)
  | cs => (false, cs)

/-- An integer of 64 bits. -/
def integer? (cs : List Char) : Option Int64 :=
  let (negative, rest) := signed cs
  (digits? rest).bind fun n =>
    if negative then if Int64.minValue.toInt ≤ -n then some (Int64.ofInt (-n)) else none
    else if n ≤ Int64.maxValue.toInt then some (Int64.ofInt n) else none

/-- The exponent of ten behind an `e`; zero at the end of the text. -/
def exponent? : List Char → Option Int
  | [] => some 0
  | c :: cs =>
    if c = 'e' || c = 'E' then
      let (negative, rest) := signed cs
      (digits? rest).map fun n => if negative then -n else n
    else none

/-- The float nearest to `± digits · 10^exponent`. An exponent far outside the
range of floats is not written out. -/
def ofDecimal (negative : Bool) (digits : Nat) (exponent : Int) : Float :=
  let size := (Nat.log2 digits : Int) + 3 * exponent
  if digits = 0 then nearest negative 0 1
  else if 0 ≤ exponent then
    if 1100 < size then infinity negative
    else nearest negative (digits * Nat.pow 10 exponent.toNat) 1
  else if size < -1100 then nearest negative 0 1
  else nearest negative digits (Nat.pow 10 (-exponent).toNat)

/-- An unsigned decimal: digits, perhaps a point and digits, perhaps an exponent,
with at least one digit before the exponent. -/
def unsignedDecimal? (negative : Bool) (cs : List Char) : Option Float :=
  let whole := cs.takeWhile Char.isDigit
  let afterWhole := cs.dropWhile Char.isDigit
  let (fraction, rest) := match afterWhole with
    | '.' :: ds => (ds.takeWhile Char.isDigit, ds.dropWhile Char.isDigit)
    | ds => ([], ds)
  match digits? (whole ++ fraction), exponent? rest with
  | some digits, some e => some (ofDecimal negative digits (e - fraction.length))
  | _, _ => none

/-- A float. Words for infinity and NaN are read in any case. -/
def float? (cs : List Char) : Option Float :=
  let (negative, rest) := signed cs
  let word := String.ofList (rest.map Char.toLower)
  if word = "inf" || word = "infinity" then some (infinity negative)
  else if word = "nan" then some nan
  else unsignedDecimal? negative rest

end ScriptLang.Number
