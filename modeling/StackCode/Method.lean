import StackCode.Descriptor.Parser

/-!
# Methods and method references

A method is a name with a signature; a reference adds the class that owns it.
-/

namespace StackCode

structure Method where
  name : String
  signature : ProperSignature
deriving DecidableEq, Hashable

namespace Method

def initName : String := "<init>"

def parse (name descriptor : String) : Except DescriptorError Method := do
  return ⟨name, ← Signature.parse descriptor⟩

def nullaryInit : Method := ⟨initName, .nullaryVoid⟩

def isInitializer (m : Method) : Bool := m.name == initName

instance : ToString Method := ⟨fun m => m.name ++ m.signature.text⟩

def structureText (m : Method) : String :=
  labelled "Method" [("name", quoted m.name), ("descriptor", m.signature.structureText)]

end Method

/-- A method of a class given by its internal name. -/
structure MethodRef where
  owner : String
  method : Method
deriving DecidableEq, Hashable

namespace MethodRef

instance : ToString MethodRef := ⟨fun r => s!"{r.owner}.{r.method}"⟩

def structureText (r : MethodRef) : String :=
  labelled "MethodRef" [("owner", quoted r.owner), ("method", r.method.structureText)]

end MethodRef

end StackCode
