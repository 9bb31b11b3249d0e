import StackCode.Descriptor.Error

/-!
# Source-level type names

`int`, `java.lang.String`, `int[][]`, `void`: a base name and a pair of brackets for each array level.
-/

namespace StackCode

/-- Takes the bracket pairs off the end of a name that is given from its end. -/
def stripBrackets : List Char → Nat × List Char
  | ']' :: '[' :: rest =>
    let (levels, base) := stripBrackets rest
    (levels + 1, base)
  | base => (0, base)

/-- The characters that no class name at source level has. -/
def barredAtSource : List Char := ['[', ']', ';', '/', '(', ')']

def isSourceName (base : List Char) : Bool :=
  !base.isEmpty && base.all fun c => !barredAtSource.contains c

def Descriptor.ofBaseName (base : String) : Descriptor :=
  match Primitive.ofName? base with
  | some kind => .primitive kind
  | none => if base = "void" then .void else .ofName base

/-- A checked array type, `levels` deep. -/
def Descriptor.arrayLevels (d : Descriptor) : Nat → Except DescriptorError Descriptor
  | 0 => .ok d
  | levels + 1 => do arrayOf (← d.arrayLevels levels)

def Descriptor.ofClassName (name : String) : Except DescriptorError Descriptor :=
  let (levels, reversed) := stripBrackets name.toList.reverse
  let base := reversed.reverse
  if isSourceName base then
    match (ofBaseName (String.ofList base)).arrayLevels levels with
    | .ok d => .ok d
    | .error _ => .error (.malformed name .invalidElement)
  else .error (.malformed name .notClassName)

end StackCode
