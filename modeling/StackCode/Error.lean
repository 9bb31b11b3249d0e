import StackCode.Method
import StackCode.Verifier.Error

/-!
# Errors while building code

What the builders of expressions, methods and classes refuse. A refused request leaves everything as it
was.
-/

namespace StackCode

/-- Requests that no operand or predicate makes sense of. -/
inductive ArgumentError where
  | operandTypes (left right : Descriptor)
  | notComparable (type : Descriptor) (op : Comparison)
  | notConvertible (source target : Descriptor)
  | absentText
  | notNullable (type : Descriptor)
  | noResult (ref : MethodRef)
  | argumentCount (ref : MethodRef) (expected found : Nat)
  | duplicateMethod (method : Method) (className : String)
  | notClass (name : String)
deriving DecidableEq

def ArgumentError.message : ArgumentError → String
  | operandTypes left right =>
    s!"left and right must have matching types, found {left.className} and {right.className}"
  | notComparable type op => s!"Type: {type.className} cannot be compared via {op}"
  | notConvertible source target => s!"Cannot convert from {source.className} to {target.className}"
  | absentText => "text constants cannot be null"
  | notNullable type => s!"null is not a value of type {type.className}"
  | noResult ref => s!"{ref} does not produce a value"
  | argumentCount ref expected found => s!"{ref} expects {expected} arguments, found {found}"
  | duplicateMethod method className => s!"method {method} is already defined in {className}"
  | notClass name => s!"{name} is not a class type"

inductive CodegenError where
  | argument (e : ArgumentError)
  | typeMismatch (expected found : Descriptor)
  | descriptor (e : DescriptorError)
  | unmarkedLabel (label : Label)
  | tooManyConstants (limit : Nat)
  | verify (e : VerifyError)
deriving DecidableEq

def CodegenError.cause : CodegenError → String
  | argument _ => "InvalidArgument"
  | typeMismatch _ _ => "TypeMismatch"
  | descriptor e => e.cause
  | unmarkedLabel _ => "UnmarkedLabel"
  | tooManyConstants _ => "TooManyConstants"
  | verify _ => "Verify"

def CodegenError.message : CodegenError → String
  | argument e => e.message
  | typeMismatch expected found => s!"expected an expression of type {expected}, found {found}"
  | descriptor e => e.message
  | unmarkedLabel label => s!"label {label} is referenced but never marked"
  | tooManyConstants limit => s!"too many constants (limit: {limit})"
  | verify e => s!"generated code failed verification: {e.message}"

end StackCode
