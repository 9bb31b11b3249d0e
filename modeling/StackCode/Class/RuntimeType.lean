import StackCode.Class.Loader

/-!
# Run-time types

What a descriptor stands for in one loader. Classes of the same name in two loaders are two types.
-/

namespace StackCode

inductive RuntimeType where
  | primitive (kind : Primitive)
  | void
  | ofClass (identity : ClassIdentity)
  | array (element : RuntimeType)
deriving DecidableEq

inductive ResolutionError where
  | misplaced (fault : Misplaced)
  | unknownClass (type : Descriptor)
deriving DecidableEq

def ResolutionError.cause : ResolutionError → String
  | misplaced _ => "InvalidType"
  | unknownClass _ => "TypeResolution"

def ResolutionError.message : ResolutionError → String
  | misplaced fault => fault.message
  | unknownClass type => s!"Could not load {type}"

namespace RuntimeType

def descriptor : RuntimeType → Descriptor
  | primitive kind => .primitive kind
  | void => .void
  | ofClass c => .ofName c.name
  | array element => .array element.descriptor

def name : RuntimeType → String
  | primitive kind => kind.name
  | void => "void"
  | ofClass c => Descriptor.replaceChar '/' '.' c.name
  | t@(array _) => Descriptor.replaceChar '/' '.' t.descriptor.text

def element? : RuntimeType → Option RuntimeType
  | array element => some element
  | _ => none

def class? : RuntimeType → Option ClassIdentity
  | ofClass c => some c
  | _ => none

def text (t : RuntimeType) : String := applied "RuntimeType" [t.name]

end RuntimeType

/-- The type that a descriptor stands for: classes have to be defined here, and method shapes stand for
no type. -/
def Loader.resolve (l : Loader) : Descriptor → Except ResolutionError RuntimeType
  | .primitive kind => .ok (.primitive kind)
  | .void => .ok .void
  | .object name =>
    match l.class? name with
    | some c => .ok (.ofClass c.identity)
    | none => .error (.unknownClass (.object name))
  | .array element =>
    if element.isValueType then
      match l.resolve element with
      | .ok t => .ok (.array t)
      | .error e => .error e
    else .error (.misplaced (.element element))
  | d@(.method _ _) => .error (.misplaced (.runtimeType d))

end StackCode
