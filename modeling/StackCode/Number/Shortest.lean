import StackCode.Number.Format

/-!
# Shortest decimal text of a floating number

`shortest` searches grids of 1, 2, … significant digits. On the first grid that has a point inside the
rounding interval of the number, the nearer of the number's two neighbours is taken, and the upper one
of two equally near. `decimalText` lays the digits out.
-/

namespace StackCode

/-- The exact value `digits * 10 ^ exponent`. -/
structure Decimal where
  digits : Nat
  exponent : Int
deriving DecidableEq

def tenTo (n : Nat) : Nat := Nat.pow 10 n

def compareScaled (a : Nat) (i : Int) (b : Nat) (j : Int) : Ordering :=
  compare (a * tenTo i.toNat * twoTo (-j).toNat) (b * twoTo j.toNat * tenTo (-i).toNat)

/-- Whether a decimal lies among the reals that round to a finite nonzero magnitude. The interval
reaches halfway to both neighbours and holds its ends when the fraction is even; below a power of two
the lower neighbour is half as far. -/
def FloatFormat.readsBack (f : FloatFormat) (magnitude : Nat) (d : Decimal) : Bool :=
  let x := f.scaled magnitude
  let narrowBelow := magnitude % twoTo f.fractionBits == 0 && twoTo f.fractionBits < magnitude
  let low := if narrowBelow then 4 * x.significand - 1 else 4 * x.significand - 2
  let high := 4 * x.significand + 2
  let closed := magnitude % 2 == 0
  let fromLow := compareScaled d.digits d.exponent low (x.exponent - 2)
  let toHigh := compareScaled d.digits d.exponent high (x.exponent - 2)
  (fromLow == .gt || closed && fromLow == .eq) && (toHigh == .lt || closed && toHigh == .eq)

def digitCount (n : Nat) : Nat :=
  (Nat.toDigits 10 n).length

/-- The least `k` with `num / den < 10 ^ k`, both nonzero. -/
def decimalScale (num den : Nat) : Int :=
  if den ≤ num then digitCount (num / den)
  else
    let leading := digitCount (den / num)
    if num * tenTo (leading - 1) = den then 2 - (leading : Int) else 1 - (leading : Int)

def Decimal.strip (d : Decimal) : Nat → Decimal
  | 0 => d
  | fuel + 1 => if d.digits ≠ 0 ∧ d.digits % 10 = 0 then
      Decimal.strip ⟨d.digits / 10, d.exponent + 1⟩ fuel else d

/-- The better of the two neighbours of `num / den` on the grid of `10 ^ place` that read back. -/
def gridCandidate (f : FloatFormat) (magnitude num den : Nat) (place : Int) : Option Decimal :=
  let scaledNum := num * tenTo (-place).toNat
  let scaledDen := den * tenTo place.toNat
  let below : Decimal := ⟨scaledNum / scaledDen, place⟩
  let above : Decimal := ⟨scaledNum / scaledDen + 1, place⟩
  match f.readsBack magnitude below, f.readsBack magnitude above with
  | true, true => if 2 * scaledNum < (2 * below.digits + 1) * scaledDen then below else above
  | true, false => below
  | false, true => above
  | false, false => none

/-- The shortest decimal that reads back to a finite nonzero magnitude, nearest first. Where no grid of
seventeen digits has one, the exact value. -/
def FloatFormat.shortest (f : FloatFormat) (magnitude : Nat) : Decimal :=
  let x := f.scaled magnitude
  let num := x.significand * twoTo x.exponent.toNat
  let den := twoTo (-x.exponent).toNat
  let scale := decimalScale num den
  let found := (List.range 17).findSome? fun (n : Nat) =>
    gridCandidate f magnitude num den (scale - (n + 1 : Nat))
  match found with
  | some d => d.strip 17
  | none => ⟨num * Nat.pow 5 (-x.exponent).toNat,
      -((-x.exponent).toNat : Int)⟩

/-- Decimals from `10 ^ -4` up to `10 ^ 16` are written positionally, with at least one digit after the
point; all others with one digit before the point and an unpadded exponent. -/
def decimalText (d : Decimal) : String :=
  let digits := Nat.toDigits 10 d.digits
  let exponent := d.exponent + digits.length - 1
  if -4 ≤ exponent ∧ exponent < 16 then
    if 0 ≤ d.exponent then
      String.ofList (digits ++ List.replicate d.exponent.toNat '0' ++ ['.', '0'])
    else
      let places := (-d.exponent).toNat
      let padded := List.replicate (places + 1 - digits.length) '0' ++ digits
      let whole := padded.length - places
      String.ofList (padded.take whole ++ '.' :: padded.drop whole)
  else
    let mantissa := match digits with
      | first :: second :: rest => first :: '.' :: second :: rest
      | short => short
    String.ofList mantissa ++ "e" ++ toString exponent

def FloatFormat.text (f : FloatFormat) (bits : Nat) : String :=
  if f.isNaN bits then "NaN"
  else
    let sign := if f.isNegative bits then "-" else ""
    let magnitude := f.magnitude bits
    sign ++ if magnitude = f.infinity then "inf" else if magnitude = 0 then "0.0"
      else decimalText (f.shortest magnitude)

end StackCode
