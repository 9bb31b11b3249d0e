import StackCode.Method
import StackCode.Value

/-!
# Execution errors

How a run can fail. Verified and linked bodies fail only for a null receiver or for the depth of calls.
-/

namespace StackCode

inductive ExecutionError where
  | stackUnderflow (pc : Nat)
  | unexpectedValue (pc : Nat) (expected : Kind) (found : Option Kind)
  /-- A branch that asks for an order of references. -/
  | orderedReferences (pc : Nat) (op : Comparison)
  | badConstant (pc : Nat) (index : UInt16)
  | badLocal (pc : Nat) (index : UInt16)
  | unresolvedLabel (pc : Nat) (label : Label)
  | noSuchClass (name : String)
  | noSuchMethod (ref : MethodRef)
  | nullReference (pc : Nat) (line : Option Nat)
  | fellOffEnd (method : String)
  | callDepthExceeded (maxDepth : Nat)
deriving DecidableEq

def lineText : Option Nat → String
  | none => "None"
  | some line => applied "Some" [toString line]

def ExecutionError.cause : ExecutionError → String
  | stackUnderflow _ => "StackUnderflow"
  | unexpectedValue _ _ _ | orderedReferences _ _ => "UnexpectedValue"
  | badConstant _ _ => "BadConstant"
  | badLocal _ _ => "BadLocal"
  | unresolvedLabel _ _ => "UnresolvedLabel"
  | noSuchClass _ => "NoSuchClass"
  | noSuchMethod _ => "NoSuchMethod"
  | nullReference _ _ => "NullReference"
  | fellOffEnd _ => "FellOffEnd"
  | callDepthExceeded _ => "CallDepthExceeded"

def ExecutionError.message : ExecutionError → String
  | stackUnderflow pc => s!"operand stack underflow at pc {pc}"
  | unexpectedValue pc expected found =>
    s!"expected {expected} at pc {pc}, found {Value.kindName found}"
  | orderedReferences pc op => s!"expected EQ or NE reference comparison at pc {pc}, found {op}"
  | badConstant pc index => s!"bad constant pool reference #{index.toNat} at pc {pc}"
  | badLocal pc index => s!"bad local variable index {index.toNat} at pc {pc}"
  | unresolvedLabel pc label => s!"branch at pc {pc} targets unmarked label {label}"
  | noSuchClass name => s!"no class named {name}"
  | noSuchMethod ref => s!"no such method {ref}"
  | nullReference pc line => s!"null receiver at pc {pc} (line {lineText line})"
  | fellOffEnd method => s!"{method} completed without returning"
  | callDepthExceeded maxDepth => s!"call depth exceeded the limit of {maxDepth}"

end StackCode
