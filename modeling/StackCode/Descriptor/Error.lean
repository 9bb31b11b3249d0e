import StackCode.Descriptor.Basic

/-!
# Errors about descriptors

A text that is no descriptor or no class name, and a type used where its sort is not allowed.
-/

namespace StackCode

inductive ReadFault where
  | expectedParameters
  | unterminatedParameters
  | tooManyDimensions
  | unexpectedCharacter
  | unexpectedEnd
  | unterminatedName
  | invalidName
  | trailingCharacters
deriving DecidableEq

def ReadFault.message : ReadFault → String
  | expectedParameters => "expected '('"
  | unterminatedParameters => "unterminated parameter list"
  | tooManyDimensions => "too many array dimensions"
  | unexpectedCharacter => "unexpected character"
  | unexpectedEnd => "unexpected end of descriptor"
  | unterminatedName => "unterminated class name"
  | invalidName => "invalid class name"
  | trailingCharacters => "trailing characters"

/-- Why a text stands for no type. Offsets count bytes of its UTF-8 form. -/
inductive TextFault where
  | unreadable (fault : ReadFault) (offset : Nat)
  | tooManyDimensions
  | notClassName
  | invalidElement
deriving DecidableEq

def TextFault.message : TextFault → String
  | unreadable fault offset => s!"{fault.message} at offset {offset}"
  | tooManyDimensions => "too many array dimensions"
  | notClassName => "not a class name"
  | invalidElement => "invalid array element"

inductive Misplaced where
  | element (type : Descriptor)
  | parameter (type : Descriptor)
  | result (type : Descriptor)
  | runtimeType (type : Descriptor)
deriving DecidableEq

def Misplaced.message : Misplaced → String
  | element type => s!"{type} cannot be an array element type"
  | parameter type => s!"{type} cannot be a parameter type"
  | result type => s!"{type} cannot be a return type"
  | runtimeType type => s!"Method types are not supported: {type}"

inductive DescriptorError where
  | malformed (text : String) (fault : TextFault)
  | misplaced (fault : Misplaced)
deriving DecidableEq

def DescriptorError.cause : DescriptorError → String
  | malformed _ _ => "InvalidDescriptor"
  | misplaced _ => "InvalidType"

def DescriptorError.message : DescriptorError → String
  | malformed text fault => s!"malformed descriptor {quoted text}: {fault.message}"
  | misplaced fault => fault.message

namespace Descriptor

def maxDimensions : Nat := 255

def arrayOf (element : Descriptor) : Except DescriptorError Descriptor :=
  match element with
  | .void | .method _ _ => .error (.misplaced (.element element))
  | _ =>
    if maxDimensions ≤ element.dimensions then
      .error (.malformed ("[" ++ element.text) .tooManyDimensions)
    else .ok (.array element)

end Descriptor

/-- Refuses parameters without values and results that are method shapes. -/
def Signature.ofTypes (params : List Descriptor) (returns : Descriptor) :
    Except DescriptorError ProperSignature :=
  match hp : params.find? fun p => !p.isValueType with
  | some bad => .error (.misplaced (.parameter bad))
  | none =>
    if hr : returns = .void ∨ returns.isValueType then .ok ⟨⟨params, returns⟩, by simpa using hp, hr⟩
    else .error (.misplaced (.result returns))

end StackCode
