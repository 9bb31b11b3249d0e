/-!
# Binary floating formats

A bit pattern is a natural number: a sign bit, an exponent field and a fraction field. Below the sign
bit lies the magnitude, whose order is the order of the values. `scaled` reads a finite magnitude
as an exact value, `roundMagnitude` finds the magnitude nearest to an exact value.
-/

namespace StackCode

def twoTo (n : Nat) : Nat := Nat.pow 2 n

/-- A binary floating format by the widths of its fields. -/
structure FloatFormat where
  fractionBits : Nat
  exponentBits : Nat

/-- The exact non-negative value `significand * 2 ^ exponent`. -/
structure Scaled where
  significand : Nat
  exponent : Int

/-- `n / 2 ^ places`, rounded to nearest, a half to the even neighbour. -/
def shiftRound (n places : Nat) : Nat :=
  let whole := n / twoTo places
  let rest := n % twoTo places
  if twoTo places < 2 * rest || (2 * rest == twoTo places && whole % 2 == 1) then whole + 1 else whole

namespace FloatFormat

variable (f : FloatFormat)

def signBit : Nat := twoTo (f.fractionBits + f.exponentBits)

def infinity : Nat := (twoTo f.exponentBits - 1) * twoTo f.fractionBits

def quietBit : Nat := twoTo (f.fractionBits - 1)

/-- The exponent of the last place of the least magnitudes. -/
def leastExponent : Int := 2 - twoTo (f.exponentBits - 1) - f.fractionBits

def isNegative (bits : Nat) : Bool := f.signBit ≤ bits

def magnitude (bits : Nat) : Nat := bits % f.signBit

def isNaN (bits : Nat) : Bool := f.infinity < f.magnitude bits

def signed (negative : Bool) (magnitude : Nat) : Nat :=
  if negative then f.signBit + magnitude else magnitude

def scaled (magnitude : Nat) : Scaled :=
  let exponent := magnitude / twoTo f.fractionBits
  let fraction := magnitude % twoTo f.fractionBits
  if exponent = 0 then ⟨fraction, f.leastExponent⟩
  else ⟨twoTo f.fractionBits + fraction, f.leastExponent + exponent - 1⟩

/-- The magnitude nearest to a value, ties to the even fraction; infinity when all finite ones are too
small. A significand rounded up to the next power of two carries into the exponent field by itself. -/
def roundMagnitude (x : Scaled) : Nat :=
  if x.significand = 0 then 0 else
    let place := max (x.exponent + x.significand.log2 - f.fractionBits) f.leastExponent
    let kept := if place ≤ x.exponent then x.significand * twoTo (x.exponent - place).toNat
      else shiftRound x.significand (place - x.exponent).toNat
    min ((place - f.leastExponent).toNat * twoTo f.fractionBits + kept) f.infinity

def ofInt (n : Int) : Nat :=
  f.signed (n < 0) (f.roundMagnitude ⟨n.natAbs, 0⟩)

/-- The integer part of a number, kept between two bounds; NaN has none and gives zero. -/
def truncate (low high : Int) (bits : Nat) : Int :=
  if f.isNaN bits then 0
  else
    let negative := f.isNegative bits
    if f.magnitude bits = f.infinity then if negative then low else high
    else
      let x := f.scaled (f.magnitude bits)
      let whole := if 0 ≤ x.exponent then x.significand * twoTo x.exponent.toNat
        else x.significand / twoTo (-x.exponent).toNat
      max low (min high (if negative then -(whole : Int) else whole))

/-- The bits of another format nearest to a number. A NaN keeps its sign and the top of its payload,
and becomes quiet. -/
def convert (target : FloatFormat) (bits : Nat) : Nat :=
  let magnitude := f.magnitude bits
  target.signed (f.isNegative bits) <|
    if f.isNaN bits then
      let payload := magnitude % twoTo f.fractionBits * twoTo target.fractionBits / twoTo f.fractionBits
      target.infinity + (payload ||| target.quietBit)
    else if magnitude = f.infinity then target.infinity
    else target.roundMagnitude (f.scaled magnitude)

/-- The place of a number in the order of the values: both zeros have one place. -/
def rank (bits : Nat) : Int :=
  if f.isNegative bits then -(f.magnitude bits : Int) else f.magnitude bits

def compare? (a b : Nat) : Option Ordering :=
  if f.isNaN a || f.isNaN b then none else some (compare (f.rank a) (f.rank b))

end FloatFormat

def singleFormat : FloatFormat := ⟨23, 8⟩

def doubleFormat : FloatFormat := ⟨52, 11⟩

end StackCode
