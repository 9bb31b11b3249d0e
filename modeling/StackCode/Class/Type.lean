import StackCode.Descriptor.ClassName
import StackCode.Error

/-!
# Class types

The type of a class, known by its internal name; its source name and its descriptor follow.
-/

namespace StackCode

structure ClassType where
  internalName : String
deriving DecidableEq

namespace ClassType

/-- The type of a class named at source level. Primitives, arrays and `void` are no classes. -/
def ofName (name : String) : Except CodegenError ClassType :=
  match Descriptor.ofClassName name with
  | .error e => .error (.descriptor e)
  | .ok (.object internalName) => .ok ⟨internalName⟩
  | .ok _ => .error (.argument (.notClass name))

def root : ClassType := ⟨Descriptor.rootClassName⟩

def descriptor (c : ClassType) : Descriptor := .object c.internalName

def className (c : ClassType) : String := c.descriptor.className

end ClassType

end StackCode
