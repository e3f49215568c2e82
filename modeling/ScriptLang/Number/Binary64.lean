/-!
# Floats as integers times powers of two

A finite float is `± m · 2^q` with `m < 2^53` and `-1074 ≤ q`. Reading these
parts off the bits makes conversion and remainder exact integer arithmetic; one
rounding, `nearestBits`, leads back.
-/

namespace ScriptLang.Number

/-- Sign, integer and exponent of a finite float. -/
structure Parts where
  negative : Bool
  mantissa : Nat
  exponent : Int
  deriving DecidableEq

/-- The bits of positive infinity, and one more than those of every finite float. -/
def infinityBits : Nat := 0x7FF0000000000000

def signBit : Nat := 0x8000000000000000

/-- The bit that the integer of a normal float has beyond its fraction. -/
def hiddenBit : Nat := 0x10000000000000

/-- The parts of a float, none for infinities and NaN. -/
def parts? (x : Float) : Option Parts :=
  let bits := x.toBits.toNat
  let magnitude : Nat := bits % signBit
  if infinityBits ≤ magnitude then none
  else
    let fraction : Nat := magnitude % hiddenBit
    let biased : Nat := magnitude / hiddenBit
    let negative := decide (signBit ≤ bits)
    if biased = 0 then some ⟨negative, fraction, -1074⟩
    else some ⟨negative, fraction + hiddenBit, (biased : Int) - 1075⟩

/-- `num / den` to the nearest integer, a half to the even one. -/
def roundHalfEven (num den : Nat) : Nat :=
  let quotient := num / den
  let twice := 2 * (num % den)
  if den < twice || (den = twice && quotient % 2 = 1) then quotient + 1 else quotient

/-- The exponent of the last place of a float near `num / den`. -/
def lastPlace (num den : Nat) : Int :=
  let estimate : Int := (Nat.log2 num : Int) - (Nat.log2 den : Int)
  let atLeast : Bool :=
    if 0 ≤ estimate then den <<< estimate.toNat ≤ num
    else den ≤ num <<< (-estimate).toNat
  max ((if atLeast then estimate else estimate - 1) - 52) (-1074)

/-- The bits of the float nearest to `num / den`, ties to even, infinity from
where the finite floats end. -/
def nearestBits (num den : Nat) : Nat :=
  if num = 0 then 0
  else
    let q := lastPlace num den
    let mantissa :=
      if 0 ≤ q then roundHalfEven num (den <<< q.toNat)
      else roundHalfEven (num <<< (-q).toNat) den
    min infinityBits ((q + 1074).toNat * hiddenBit + mantissa)

/-- The float nearest to `± num / den`. -/
def nearest (negative : Bool) (num den : Nat) : Float :=
  Float.ofBits (UInt64.ofNat (nearestBits num den + if negative then signBit else 0))

def nan : Float := Float.ofBits 0x7FF8000000000000

def infinity (negative : Bool) : Float :=
  Float.ofBits (UInt64.ofNat (infinityBits + if negative then signBit else 0))

/-- The float nearest to an integer. -/
def ofInteger (n : Int64) : Float := nearest (n < 0) n.toInt.natAbs 1

/-- The nearest 64-bit integer to an integer. -/
def clampInteger (n : Int) : Int64 :=
  Int64.ofInt (max Int64.minValue.toInt (min Int64.maxValue.toInt n))

/-- The integer part of a float, clamped to 64 bits; zero for NaN. -/
def truncate (x : Float) : Int64 :=
  match parts? x with
  | some ⟨negative, m, q⟩ =>
    let magnitude := if 0 ≤ q then m <<< q.toNat else m >>> (-q).toNat
    clampInteger (if negative then -magnitude else magnitude)
  | none =>
    if x.isNaN then 0 else if x < 0 then Int64.minValue else Int64.maxValue

/-- What division toward zero leaves of `x`, with the sign of `x`, exactly. -/
def remainder (x y : Float) : Float :=
  match parts? x, parts? y with
  | none, _ => nan
  | some _, none => if y.isNaN then nan else x
  | some ⟨negative, m, q⟩, some ⟨_, n, r⟩ =>
    if n = 0 then nan
    else
      let low := min q r
      let rest := (m <<< (q - low).toNat) % (n <<< (r - low).toNat)
      if 0 ≤ low then nearest negative (rest <<< low.toNat) 1
      else nearest negative rest (1 <<< (-low).toNat)

end ScriptLang.Number
