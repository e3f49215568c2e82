import ScriptLang.Number.Binary64

/-!
# The shortest decimal of a float

Of the decimals that read back as a given float, a text shows one with the fewest
digits, and of those the nearest to the float. All numbers are scaled by a power
of ten that makes the float and the ends of its rounding interval integers.
-/

namespace ScriptLang.Number

/-- Decimals between `low` and `high` read back as `value`; the ends do if `closed`. -/
structure Interval where
  low : Nat
  value : Nat
  high : Nat
  closed : Bool

def Interval.contains (i : Interval) (n : Nat) : Bool :=
  if i.closed then i.low ≤ n && n ≤ i.high else i.low < n && n < i.high

def digitCount (n : Nat) : Nat := (Nat.toDigits 10 n).length

/-- The multiple of `unit` nearest to the value among the two beside it that
read back, in units. At equal distance it is the larger. -/
def Interval.onGrid? (i : Interval) (unit : Nat) : Option Nat :=
  let below := i.value / unit
  let above := below + 1
  match i.contains (below * unit), i.contains (above * unit) with
  | true, true =>
    some (if i.value - below * unit < above * unit - i.value then below else above)
  | true, false => some below
  | false, true => some above
  | false, false => none

/-- Tries units of `10^places`, then ever smaller ones. -/
def Interval.coarsest (i : Interval) : Nat → Nat × Nat
  | 0 => (i.value, 0)
  | places + 1 =>
    match i.onGrid? (Nat.pow 10 (places + 1)) with
    | some d => (d, places + 1)
    | none => i.coarsest places

/-- A decimal `digits · 10^exponent`. -/
structure Scientific where
  digits : Nat
  exponent : Int
  deriving DecidableEq

/-- The interval of `m · 2^q` in units of `10^s`, with `s`. -/
def roundingInterval (m : Nat) (q : Int) : Interval × Int :=
  let k := q - 2
  let scale := if 0 ≤ k then 1 <<< k.toNat else Nat.pow 5 (-k).toNat
  let belowBy := if m = hiddenBit && -1074 < q then 1 else 2
  (⟨(4 * m - belowBy) * scale, 4 * m * scale, (4 * m + 2) * scale, m % 2 = 0⟩, min k 0)

/-- The shortest decimal that reads back as `m · 2^q`. -/
def shortest (m : Nat) (q : Int) : Scientific :=
  let (interval, s) := roundingInterval m q
  let (digits, zeros) := interval.coarsest (digitCount interval.value - 1)
  ⟨digits, zeros + s⟩

/-- A decimal fraction without trailing zeros, led by its point; empty if it is zero. -/
def fractionText (digits : List Char) : List Char :=
  match (digits.reverse.dropWhile (· = '0')).reverse with
  | [] => []
  | ds => '.' :: ds

/-- A decimal written out without exponent. -/
def Scientific.positional (d : Scientific) : List Char :=
  let digits := Nat.toDigits 10 d.digits
  if 0 ≤ d.exponent then digits ++ List.replicate d.exponent.toNat '0'
  else
    let places := (-d.exponent).toNat
    let padded := List.replicate (places + 1 - digits.length) '0' ++ digits
    padded.take (padded.length - places) ++ fractionText (padded.drop (padded.length - places))

/-- A float in decimal; `infinite` is the word for infinity. -/
def decimal (infinite : String) (x : Float) : String :=
  match parts? x with
  | none => if x.isNaN then "NaN" else if x < 0 then "-" ++ infinite else infinite
  | some ⟨negative, m, q⟩ =>
    let text := if m = 0 then ['0'] else (shortest m q).positional
    String.ofList (if negative then '-' :: text else text)

end ScriptLang.Number
