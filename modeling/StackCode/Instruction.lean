import StackCode.Comparison
import StackCode.Kind

/-!
# Instructions

The instruction set of a typed stack machine. Values have kinds; longs and doubles take two slots, which
separates `dup` from `dup2` and `pop` from `pop2`. Comparisons are branches: the wide ones first reduce
their operands to an int.
-/

namespace StackCode

/-- A position in a body, fixed when the body is finished. -/
structure Label where
  index : Nat
deriving DecidableEq

instance : ToString Label := ⟨fun l => s!"L{l.index}"⟩

/-- Numeric conversions, named by source and target. The last three narrow an int. -/
inductive Conversion where
  | i2l | i2f | i2d | l2i | l2f | l2d | f2i | f2l | f2d | d2i | d2l | d2f | i2b | i2c | i2s
deriving DecidableEq

namespace Conversion

def all : List Conversion :=
  [i2l, i2f, i2d, l2i, l2f, l2d, f2i, f2l, f2d, d2i, d2l, d2f, i2b, i2c, i2s]

def source : Conversion → Kind
  | i2l | i2f | i2d | i2b | i2c | i2s => .int
  | l2i | l2f | l2d => .long
  | f2i | f2l | f2d => .float
  | d2i | d2l | d2f => .double

def target : Conversion → Kind
  | l2i | f2i | d2i | i2b | i2c | i2s => .int
  | i2l | f2l | d2l => .long
  | i2f | l2f | d2f => .float
  | i2d | l2d | f2d => .double

def name : Conversion → String
  | i2l => "I2L" | i2f => "I2F" | i2d => "I2D"
  | l2i => "L2I" | l2f => "L2F" | l2d => "L2D"
  | f2i => "F2I" | f2l => "F2L" | f2d => "F2D"
  | d2i => "D2I" | d2l => "D2L" | d2f => "D2F"
  | i2b => "I2B" | i2c => "I2C" | i2s => "I2S"

end Conversion

/-- Comparisons of two wide or floating operands, with the result -1, 0 or 1. The floating ones differ
in what NaN gives: -1 for the `l` forms, 1 for the `g` forms. -/
inductive Reduction where
  | lcmp | fcmpl | fcmpg | dcmpl | dcmpg
deriving DecidableEq

namespace Reduction

def all : List Reduction := [lcmp, fcmpl, fcmpg, dcmpl, dcmpg]

def operand : Reduction → Kind
  | lcmp => .long
  | fcmpl | fcmpg => .float
  | dcmpl | dcmpg => .double

def name : Reduction → String
  | lcmp => "LCmp"
  | fcmpl => "FCmpL"
  | fcmpg => "FCmpG"
  | dcmpl => "DCmpL"
  | dcmpg => "DCmpG"

end Reduction

inductive Instruction where
  | nop
  | aconstNull
  | iconst (value : Int8)
  | lconst (value : UInt8)
  | fconst (value : UInt8)
  | dconst (value : UInt8)
  | bipush (value : Int8)
  | sipush (value : Int16)
  /-- Pushes an int, float or string of the constant pool. -/
  | ldc (index : UInt16)
  /-- Pushes a long or double of the constant pool. -/
  | ldc2 (index : UInt16)
  | load (kind : Kind) (index : UInt16)
  | pop
  | pop2
  | dup
  | dup2
  | convert (conversion : Conversion)
  | reduce (reduction : Reduction)
  /-- Branches on an int compared to zero. -/
  | ifZero (op : Comparison) (target : Label)
  | ifInt (op : Comparison) (target : Label)
  /-- Branches on the identity of two references. -/
  | ifSame (op : Comparison) (target : Label)
  | ifNull (target : Label)
  | ifNonNull (target : Label)
  | goto (target : Label)
  /-- Allocates an instance of a class of the constant pool. -/
  | new (index : UInt16)
  | invokeSpecial (index : UInt16)
  | invokeStatic (index : UInt16)
  /-- Returns a value of a kind, or nothing. -/
  | leave (result : Option Kind)
deriving DecidableEq

namespace Instruction

def target? : Instruction → Option Label
  | ifZero _ l | ifInt _ l | ifSame _ l | ifNull l | ifNonNull l | goto l => some l
  | _ => none

def constantIndex? : Instruction → Option UInt16
  | ldc i | ldc2 i | new i | invokeSpecial i | invokeStatic i => some i
  | _ => none

def isReturn : Instruction → Bool
  | leave _ => true
  | _ => false

/-- Whether control never reaches the next instruction from here. -/
def endsBlock : Instruction → Bool
  | goto _ | leave _ => true
  | _ => false

def parts : Instruction → String × List String
  | nop => ("Nop", [])
  | aconstNull => ("AConstNull", [])
  | iconst v => ("IConst", [toString v.toInt])
  | lconst v => ("LConst", [toString v.toNat])
  | fconst v => ("FConst", [toString v.toNat])
  | dconst v => ("DConst", [toString v.toNat])
  | bipush v => ("BiPush", [toString v.toInt])
  | sipush v => ("SiPush", [toString v.toInt])
  | ldc i => ("Ldc", [toString i.toNat])
  | ldc2 i => ("Ldc2W", [toString i.toNat])
  | load k i => (k.letter ++ "Load", [toString i.toNat])
  | pop => ("Pop", [])
  | pop2 => ("Pop2", [])
  | dup => ("Dup", [])
  | dup2 => ("Dup2", [])
  | convert c => (c.name, [])
  | reduce r => (r.name, [])
  | ifZero op l => ("If", [op.constructorName, toString l])
  | ifInt op l => ("IfICmp", [op.constructorName, toString l])
  | ifSame op l => ("IfACmp", [op.constructorName, toString l])
  | ifNull l => ("IfNull", [toString l])
  | ifNonNull l => ("IfNonNull", [toString l])
  | goto l => ("Goto", [toString l])
  | new i => ("New", [toString i.toNat])
  | invokeSpecial i => ("InvokeSpecial", [toString i.toNat])
  | invokeStatic i => ("InvokeStatic", [toString i.toNat])
  | leave (some k) => (k.letter ++ "Return", [])
  | leave none => ("Return", [])

def name (i : Instruction) : String := i.parts.1

def plain : List Instruction :=
  [nop, aconstNull, pop, pop2, dup, dup2] ++ Conversion.all.map convert ++ Reduction.all.map reduce
    ++ leave none :: Kind.all.map fun k => leave (some k)

def ofName? (name : String) : Option Instruction := plain.find? fun i => i.name == name

def text (i : Instruction) : String := applied i.parts.1 i.parts.2

end Instruction

end StackCode
