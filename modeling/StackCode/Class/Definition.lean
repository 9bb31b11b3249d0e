import StackCode.Access
import StackCode.Code.Listing
import StackCode.Machine.Error

/-!
# Class definitions

Classes and methods as they are handed to a loader.
-/

namespace StackCode

/-- A method body of the host: from the receiver, if any, and the arguments to the result. -/
abbrev NativeMethod := List Value → Except ExecutionError (Option Value)

inductive MethodBody where
  | code (code : Code)
  | native (run : NativeMethod)

structure MethodDefinition where
  access : Access
  method : Method
  body : MethodBody

namespace MethodDefinition

def code? (d : MethodDefinition) : Option Code :=
  match d.body with
  | .code code => some code
  | .native _ => none

def structureText (d : MethodDefinition) : String :=
  labelled "MethodDefinition" [("access", d.access.structureText), ("method", d.method.structureText),
    ("code", match d.body with
      | .code code => code.listing
      | .native _ => quoted "<native>")]

end MethodDefinition

def findMethod? (methods : List MethodDefinition) (m : Method) : Option MethodDefinition :=
  methods.find? fun d => d.method = m

structure ClassDefinition where
  access : Access
  /-- The internal name. -/
  name : String
  /-- The internal name of the class extended; only the root extends none. -/
  superName : Option String
  methods : List MethodDefinition

def ClassDefinition.method? (c : ClassDefinition) (m : Method) : Option MethodDefinition :=
  findMethod? c.methods m

end StackCode
