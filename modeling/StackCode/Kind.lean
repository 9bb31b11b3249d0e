import StackCode.Descriptor.Basic

/-!
# Kinds of stack values

What an operand or a local slot holds, as instructions see it. Small integers and booleans are ints,
classes and arrays are references.
-/

namespace StackCode

inductive Kind where
  | int | float | long | double | reference
deriving DecidableEq

namespace Kind

def all : List Kind := [int, long, float, double, reference]

def size : Kind → Nat
  | long | double => 2
  | _ => 1

def name : Kind → String
  | int => "int"
  | float => "float"
  | long => "long"
  | double => "double"
  | reference => "reference"

def constructorName : Kind → String
  | int => "Int"
  | float => "Float"
  | long => "Long"
  | double => "Double"
  | reference => "Reference"

def letter : Kind → String
  | int => "I"
  | float => "F"
  | long => "L"
  | double => "D"
  | reference => "A"

instance : ToString Kind := ⟨name⟩

end Kind

def Primitive.kind : Primitive → Kind
  | long => .long
  | float => .float
  | double => .double
  | _ => .int

/-- The kind of a type's values; `void` and method shapes have none. -/
def Descriptor.kind? : Descriptor → Option Kind
  | primitive p => some p.kind
  | object _ | array _ => some .reference
  | void | method _ _ => none

theorem Primitive.size_kind (p : Primitive) : p.kind.size = p.size := by
  cases p <;> rfl

theorem Descriptor.size_kind? {d : Descriptor} {k : Kind} (h : d.kind? = some k) :
    k.size = d.size := by
  cases d <;> cases h
  · exact Primitive.size_kind _
  · rfl
  · rfl

theorem Descriptor.isSome_kind? (d : Descriptor) : d.kind?.isSome = d.isValueType := by
  cases d <;> rfl

end StackCode
