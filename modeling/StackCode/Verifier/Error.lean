import StackCode.Instruction
import StackCode.Text.Record

/-!
# Verification errors

Why a body is refused, each with the position where it shows.
-/

namespace StackCode

/-- Stacks of kinds are written bottom first in messages and held top first. -/
inductive VerifyError where
  | stackUnderflow (pc : Nat)
  | operandMismatch (pc : Nat) (expected found : Kind)
  | wideOperand (pc : Nat) (found : Kind)
  | shapeMismatch (pc : Nat) (expected found : List Kind)
  | invalidTarget (pc : Nat) (label : Label)
  | fallsOffEnd (pc : Nat)
  | badConstant (pc : Nat) (index : UInt16)
  | badLocal (pc : Nat) (index : UInt16)
  | badReturn (pc : Nat) (expected : Descriptor)
  | invalidComparison (pc : Nat) (op : Comparison)
  | maxStackTooSmall (declared required : Nat)
deriving DecidableEq

def shapeText (stack : List Kind) : String :=
  bracketed (stack.reverse.map Kind.constructorName)

def VerifyError.cause : VerifyError → String
  | stackUnderflow _ => "StackUnderflow"
  | operandMismatch _ _ _ => "OperandMismatch"
  | wideOperand _ _ => "WideOperand"
  | shapeMismatch _ _ _ => "StackShapeMismatch"
  | invalidTarget _ _ => "InvalidBranchTarget"
  | fallsOffEnd _ => "FallsOffEnd"
  | badConstant _ _ => "BadConstant"
  | badLocal _ _ => "BadLocal"
  | badReturn _ _ => "BadReturn"
  | invalidComparison _ _ => "InvalidComparison"
  | maxStackTooSmall _ _ => "MaxStackTooSmall"

def VerifyError.message : VerifyError → String
  | stackUnderflow pc => s!"pc {pc}: operand stack underflow"
  | operandMismatch pc expected found =>
    s!"pc {pc}: expected {expected} on the operand stack, found {found}"
  | wideOperand pc found =>
    s!"pc {pc}: {found} is a two-slot value where a single-slot value is required"
  | shapeMismatch pc expected found =>
    s!"pc {pc}: stack shapes disagree where control flow merges: {shapeText expected} vs {shapeText found}"
  | invalidTarget pc label => s!"pc {pc}: {label} is not a valid branch target"
  | fallsOffEnd pc => s!"pc {pc}: execution falls off the end of the code"
  | badConstant pc index => s!"pc {pc}: bad constant pool reference #{index.toNat}"
  | badLocal pc index => s!"pc {pc}: bad local variable access at index {index.toNat}"
  | badReturn pc expected => s!"pc {pc}: return does not match method return type {expected}"
  | invalidComparison pc op => s!"pc {pc}: references cannot be compared via {op}"
  | maxStackTooSmall declared required =>
    s!"declared max_stack {declared} is smaller than the required {required}"

end StackCode
