import StackCode.Number.Shortest

/-!
# Floating numbers of 32 and 64 bits

Both types hold exact bit patterns, so equality tells zeros and NaNs apart. Numeric order, conversions
and text come from the format.
-/

namespace StackCode

structure Single where
  bits : UInt32
deriving DecidableEq, Hashable

structure Double where
  bits : UInt64
deriving DecidableEq, Hashable

namespace Single

def ofInt (n : Int) : Single := ⟨.ofNat (singleFormat.ofInt n)⟩

def isNaN (x : Single) : Bool := singleFormat.isNaN x.bits.toNat

def compare? (x y : Single) : Option Ordering := singleFormat.compare? x.bits.toNat y.bits.toNat

def toInt32 (x : Single) : Int32 :=
  .ofInt (singleFormat.truncate Int32.minValue.toInt Int32.maxValue.toInt x.bits.toNat)

def toInt64 (x : Single) : Int64 :=
  .ofInt (singleFormat.truncate Int64.minValue.toInt Int64.maxValue.toInt x.bits.toNat)

def toDouble (x : Single) : Double := ⟨.ofNat (singleFormat.convert doubleFormat x.bits.toNat)⟩

def text (x : Single) : String := singleFormat.text x.bits.toNat

end Single

namespace Double

def ofInt (n : Int) : Double := ⟨.ofNat (doubleFormat.ofInt n)⟩

def isNaN (x : Double) : Bool := doubleFormat.isNaN x.bits.toNat

def compare? (x y : Double) : Option Ordering := doubleFormat.compare? x.bits.toNat y.bits.toNat

def toInt32 (x : Double) : Int32 :=
  .ofInt (doubleFormat.truncate Int32.minValue.toInt Int32.maxValue.toInt x.bits.toNat)

def toInt64 (x : Double) : Int64 :=
  .ofInt (doubleFormat.truncate Int64.minValue.toInt Int64.maxValue.toInt x.bits.toNat)

def toSingle (x : Double) : Single := ⟨.ofNat (doubleFormat.convert singleFormat x.bits.toNat)⟩

def text (x : Double) : String := doubleFormat.text x.bits.toNat

end Double

end StackCode
