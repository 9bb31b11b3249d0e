import StackCode.Access
import StackCode.Code.Basic
import StackCode.Verifier.Error

/-!
# Abstract execution of one instruction

`Body.step` runs an instruction on a stack of kinds, top first, and says where control goes next. It
fails where an instruction does not fit the stack, the locals, the constants or the method.
-/

namespace StackCode

structure Body where
  code : Code
  access : Access
  signature : ProperSignature

inductive Flow where
  | next
  | branch (target : Label)
  | jump (target : Label)
  | exit
deriving DecidableEq

/-- The kinds of the slots that a parameter takes; the second slot of a wide one has none. -/
def parameterSlots (d : Descriptor) : List (Option Kind) :=
  if d.size = 2 then [d.kind?, none] else [d.kind?]

/-- The kinds of the local slots on entry: the receiver, if any, and the parameters. -/
def entryLocals (access : Access) (signature : ProperSignature) : List (Option Kind) :=
  (if access.isStatic then [] else [some .reference]) ++ signature.params.flatMap parameterSlots

def slotHeight : List Kind → Nat
  | [] => 0
  | k :: stack => k.size + slotHeight stack

namespace Kind

def popAny (pc : Nat) : List Kind → Except VerifyError (Kind × List Kind)
  | [] => .error (.stackUnderflow pc)
  | k :: stack => .ok (k, stack)

def popExact (pc : Nat) (expected : Kind) : List Kind → Except VerifyError (List Kind)
  | [] => .error (.stackUnderflow pc)
  | k :: stack => if k = expected then .ok stack else .error (.operandMismatch pc expected k)

def popNarrow (pc : Nat) : List Kind → Except VerifyError (Kind × List Kind)
  | [] => .error (.stackUnderflow pc)
  | k :: stack => if k.size = 1 then .ok (k, stack) else .error (.wideOperand pc k)

def popArguments (pc : Nat) (index : UInt16) :
    List Descriptor → List Kind → Except VerifyError (List Kind)
  | [], stack => .ok stack
  | d :: ds, stack =>
    match d.kind? with
    | none => .error (.badConstant pc index)
    | some k => do popArguments pc index ds (← k.popExact pc stack)

end Kind

namespace Body

variable (body : Body)

/-- The kind that a constant has when an instruction for narrow ones pushes it. -/
def narrowKind? : Constant → Option Kind
  | .int _ => some .int
  | .float _ => some .float
  | .string _ | .classRef _ => some .reference
  | _ => none

/-- The kind that a constant has when an instruction for wide ones pushes it. -/
def wideKind? : Constant → Option Kind
  | .long _ => some .long
  | .double _ => some .double
  | _ => none

def callee? : Constant → Option MethodRef
  | .method ref => some ref
  | _ => none

/-- What an instruction sees of a constant, if the constant exists and is of a sort it accepts. -/
def constant (pc : Nat) (index : UInt16) (view : Constant → Option α) : Except VerifyError α :=
  match (body.code.constant? index).bind view with
  | some a => .ok a
  | none => .error (.badConstant pc index)

def call (pc : Nat) (index : UInt16) (receiver : Bool) (stack : List Kind) :
    Except VerifyError (List Kind) := do
  let ref ← body.constant pc index callee?
  let signature := ref.method.signature
  let stack ← Kind.popArguments pc index signature.params.reverse stack
  let stack ← if receiver then Kind.popExact pc .reference stack else .ok stack
  return signature.returns.kind?.toList ++ stack

def step (locals : Array (Option Kind)) (pc : Nat) (stack : List Kind) :
    Instruction → Except VerifyError (List Kind × Flow)
  | .nop => .ok (stack, .next)
  | .aconstNull => .ok (.reference :: stack, .next)
  | .iconst _ | .bipush _ | .sipush _ => .ok (.int :: stack, .next)
  | .lconst _ => .ok (.long :: stack, .next)
  | .fconst _ => .ok (.float :: stack, .next)
  | .dconst _ => .ok (.double :: stack, .next)
  | .ldc index => do return ((← body.constant pc index narrowKind?) :: stack, .next)
  | .ldc2 index => do return ((← body.constant pc index wideKind?) :: stack, .next)
  | .load kind index =>
    if locals[index.toNat]? = some (some kind) then .ok (kind :: stack, .next)
    else .error (.badLocal pc index)
  | .pop => do
    let (_, stack) ← Kind.popNarrow pc stack
    return (stack, .next)
  | .pop2 => do
    let (top, stack) ← Kind.popAny pc stack
    if top.size = 2 then return (stack, .next)
    let (_, stack) ← Kind.popNarrow pc stack
    return (stack, .next)
  | .dup => do
    let (top, stack) ← Kind.popNarrow pc stack
    return (top :: top :: stack, .next)
  | .dup2 => do
    let (top, stack) ← Kind.popAny pc stack
    if top.size = 2 then return (top :: top :: stack, .next)
    let (below, stack) ← Kind.popNarrow pc stack
    return (top :: below :: top :: below :: stack, .next)
  | .convert c => do return (c.target :: (← c.source.popExact pc stack), .next)
  | .reduce r => do
    let stack ← r.operand.popExact pc stack
    return (.int :: (← r.operand.popExact pc stack), .next)
  | .ifZero _ target => do return (← Kind.popExact pc .int stack, .branch target)
  | .ifInt _ target => do
    let stack ← Kind.popExact pc .int stack
    return (← Kind.popExact pc .int stack, .branch target)
  | .ifSame op target => do
    if op.isOrdering then throw (.invalidComparison pc op)
    let stack ← Kind.popExact pc .reference stack
    return (← Kind.popExact pc .reference stack, .branch target)
  | .ifNull target | .ifNonNull target => do
    return (← Kind.popExact pc .reference stack, .branch target)
  | .goto target => .ok (stack, .jump target)
  | .new index =>
    match body.code.constant? index with
    | some (.classRef _) => .ok (.reference :: stack, .next)
    | _ => .error (.badConstant pc index)
  | .invokeSpecial index => do return (← body.call pc index true stack, .next)
  | .invokeStatic index => do return (← body.call pc index false stack, .next)
  | .leave result => do
    if body.signature.returns.kind? ≠ result then throw (.badReturn pc body.signature.returns)
    match result with
    | none => return (stack, .exit)
    | some kind => return (← kind.popExact pc stack, .exit)

end Body

end StackCode
