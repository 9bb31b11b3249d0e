import StackCode.Instruction
import StackCode.Number.Floating

/-!
# Run-time values

What operand stacks and local slots hold. Objects have a number, and two references are the same exactly
when their numbers are; numbers that are never used twice keep content and identity together.
-/

namespace StackCode

/-- What an object knows of its class: the loader that defined it, and the names from the class up to
the root. -/
structure ClassIdentity where
  loader : Nat
  name : String
  ancestors : List String
deriving DecidableEq

def ClassIdentity.isSubclassOf (c : ClassIdentity) (name : String) : Bool :=
  (c.name :: c.ancestors).contains name

inductive Content where
  | text (text : String)
  | instance (ofClass : ClassIdentity)
deriving DecidableEq

structure Object where
  number : Nat
  content : Content
deriving DecidableEq

inductive Value where
  /-- Booleans, bytes, shorts and chars too. -/
  | int (value : Int32)
  | long (value : Int64)
  | float (value : Single)
  | double (value : Double)
  | null
  | object (object : Object)
  /-- The second local slot of a wide value. -/
  | top
deriving DecidableEq

namespace Value

def ofBool (b : Bool) : Value := int (if b then 1 else 0)

/-- The kind of a value; the filler has none. -/
def kind? : Value → Option Kind
  | int _ => some .int
  | long _ => some .long
  | float _ => some .float
  | double _ => some .double
  | null | object _ => some .reference
  | top => none

def kindName : Option Kind → String
  | some k => k.name
  | none => "top"

def size : Value → Nat
  | long _ | double _ => 2
  | _ => 1

def int? : Value → Option Int32
  | int v => some v
  | _ => none

/-- Booleans are ints, and any but zero is true. -/
def bool? (v : Value) : Option Bool := v.int?.map (· != 0)

def long? : Value → Option Int64
  | long v => some v
  | _ => none

def float? : Value → Option Single
  | float v => some v
  | _ => none

def double? : Value → Option Double
  | double v => some v
  | _ => none

def text? : Value → Option String
  | object ⟨_, .text s⟩ => some s
  | _ => none

def class? : Value → Option ClassIdentity
  | object ⟨_, .instance c⟩ => some c
  | _ => none

def reference? : Value → Option (Option Object)
  | null => some none
  | object o => some (some o)
  | _ => none

def isNull : Value → Bool
  | null => true
  | _ => false

/-- Equal numbers, floating ones by their bits, and identical references. -/
def same : Value → Value → Bool
  | int a, int b => a == b
  | long a, long b => a == b
  | float a, float b => a == b
  | double a, double b => a == b
  | null, null => true
  | object a, object b => a.number == b.number
  | top, top => true
  | _, _ => false

def text : Value → String
  | int v => applied "Int" [toString v.toInt]
  | long v => applied "Long" [toString v.toInt]
  | float v => applied "Float" [v.text]
  | double v => applied "Double" [v.text]
  | null => "null"
  | object ⟨_, .text s⟩ => applied "String" [quoted s]
  | object ⟨_, .instance c⟩ => applied "Instance" [c.name]
  | top => "Top"

def convert : Conversion → Value → Option Value
  | .i2l, int v => some (long v.toInt64)
  | .i2f, int v => some (float (.ofInt v.toInt))
  | .i2d, int v => some (double (.ofInt v.toInt))
  | .l2i, long v => some (int v.toInt32)
  | .l2f, long v => some (float (.ofInt v.toInt))
  | .l2d, long v => some (double (.ofInt v.toInt))
  | .f2i, float v => some (int v.toInt32)
  | .f2l, float v => some (long v.toInt64)
  | .f2d, float v => some (double v.toDouble)
  | .d2i, double v => some (int v.toInt32)
  | .d2l, double v => some (long v.toInt64)
  | .d2f, double v => some (float v.toSingle)
  | .i2b, int v => some (int v.toInt8.toInt32)
  | .i2c, int v => some (int (.ofInt (v.toInt % 65536)))
  | .i2s, int v => some (int v.toInt16.toInt32)
  | _, _ => none

theorem convert_isSome (c : Conversion) (v : Value) :
    (convert c v).isSome = (v.kind? == some c.source) := by
  cases c <;> cases v <;> rfl

theorem convert_kind {c : Conversion} {v w : Value} (h : convert c v = some w) :
    w.kind? = some c.target := by
  cases c <;> cases v <;> cases h <;> rfl

def ofOrdering : Ordering → Value
  | .lt => int (-1)
  | .eq => int 0
  | .gt => int 1

/-- The result of comparing two values of a reduction's operand kind. -/
def reduce : Reduction → Value → Value → Option Value
  | .lcmp, long a, long b => some (ofOrdering (compare a.toInt b.toInt))
  | .fcmpl, float a, float b => some (ofOrdering ((a.compare? b).getD .lt))
  | .fcmpg, float a, float b => some (ofOrdering ((a.compare? b).getD .gt))
  | .dcmpl, double a, double b => some (ofOrdering ((a.compare? b).getD .lt))
  | .dcmpg, double a, double b => some (ofOrdering ((a.compare? b).getD .gt))
  | _, _, _ => none

end Value

end StackCode
