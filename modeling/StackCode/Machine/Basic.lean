import StackCode.Class.Loader
import StackCode.Machine.Stack

/-!
# The machine and its instructions

`Machine.perform` says what one instruction does in an activation, the execution of one body. Equal
string literals are one object for the life of a machine.
-/

namespace StackCode

structure Machine where
  loader : Loader
  options : ExecutionOptions
  depth : Nat
  /-- The number of the next object. -/
  supply : Nat
  /-- The objects of the string literals met so far, by text. -/
  literals : List (String × Nat)

inductive Completion where
  /-- By a return instruction. -/
  | returned (value : Option Value)
  /-- At the end of its instructions, with its stack from bottom to top. -/
  | fellThrough (stack : List Value)
deriving DecidableEq

/-- The value returned, or the top of the stack left behind. -/
def Completion.value? : Completion → Option Value
  | returned v => v
  | fellThrough stack => stack.getLast?

structure Activation where
  code : Code
  /-- The method called; a body run directly has none. -/
  method : Option Method
  pc : Nat
  locals : Array Value
  stack : Stack

inductive Action where
  | proceed (stack : Stack)
  | pushLiteral (stack : Stack) (text : String)
  | pushInstance (stack : Stack) (ofClass : ClassIdentity)
  | jump (stack : Stack) (target : Label)
  | call (stack : Stack) (callee : MethodDefinition) (arguments : List Value)
  | leave (value : Option Value)

/-- Arguments as local slots: a wide one is followed by a filler. -/
def argumentSlots (arguments : List Value) : List Value :=
  arguments.flatMap fun v => if v.size = 2 then [v, .top] else [v]

def Activation.start (code : Code) (method : Option Method) (locals : List Value) : Activation :=
  ⟨code, method, 0, locals.toArray, .empty code.maxStack⟩

namespace Machine

/-- A machine that has run nothing; its objects are numbered from `supply` on. -/
def initial (loader : Loader) (options : ExecutionOptions) (supply : Nat) : Machine :=
  ⟨loader, options, 0, supply, []⟩

variable (m : Machine)

def allocate (content : Content) : Object × Machine :=
  (⟨m.supply, content⟩, { m with supply := m.supply + 1 })

def literal (text : String) : Object × Machine :=
  match m.literals.lookup text with
  | some number => (⟨number, .text text⟩, m)
  | none =>
    let (o, m) := m.allocate (.text text)
    (o, { m with literals := (text, o.number) :: m.literals })

@[simp] theorem literal_loader (text : String) : (m.literal text).2.loader = m.loader := by
  unfold literal
  split <;> rfl

@[simp] theorem literal_options (text : String) : (m.literal text).2.options = m.options := by
  unfold literal
  split <;> rfl

@[simp] theorem literal_depth (text : String) : (m.literal text).2.depth = m.depth := by
  unfold literal
  split <;> rfl

@[simp] theorem literal_content (text : String) : (m.literal text).1.content = .text text := by
  unfold literal
  split <;> rfl

/-- The static method that a call names. The nearest declaration counts, and has to be static. -/
def staticMethod (ref : MethodRef) : Except ExecutionError MethodDefinition :=
  match m.loader.class? ref.owner with
  | none => .error (.noSuchClass ref.owner)
  | some c =>
    match c.inheritedMethod? ref.method with
    | some d => if d.access.isStatic then .ok d else .error (.noSuchMethod ref)
    | none => .error (.noSuchMethod ref)

/-- The method that a call on a receiver names; it has to be declared by the owner itself. -/
def specialMethod (ref : MethodRef) : Except ExecutionError MethodDefinition :=
  match (m.loader.class? ref.owner).bind fun c => c.declaredMethod? ref.method with
  | some d => .ok d
  | none => .error (.noSuchMethod ref)

def branchIf (condition : Bool) (stack : Stack) (target : Label) : Action :=
  if condition then .jump stack target else .proceed stack

def load (a : Activation) (index : UInt16) : Except Fault Action :=
  match a.code.constant? index with
  | some (.int v) => do return .proceed (← a.stack.push (.int v))
  | some (.float v) => do return .proceed (← a.stack.push (.float v))
  | some (.long v) => do return .proceed (← a.stack.push (.long v))
  | some (.double v) => do return .proceed (← a.stack.push (.double v))
  | some (.string s) => .ok (.pushLiteral a.stack s)
  | _ => .error (.error (.badConstant a.pc index))

def methodRef (a : Activation) (index : UInt16) : Except Fault MethodRef :=
  match a.code.constant? index with
  | some (.method ref) => .ok ref
  | _ => .error (.error (.badConstant a.pc index))

def perform (a : Activation) : Instruction → Except Fault Action
  | .nop => .ok (.proceed a.stack)
  | .aconstNull => do return .proceed (← a.stack.push .null)
  | .iconst v | .bipush v => do return .proceed (← a.stack.push (.int v.toInt32))
  | .sipush v => do return .proceed (← a.stack.push (.int v.toInt32))
  | .lconst v => do return .proceed (← a.stack.push (.long (.ofNat v.toNat)))
  | .fconst v => do return .proceed (← a.stack.push (.float (.ofInt v.toNat)))
  | .dconst v => do return .proceed (← a.stack.push (.double (.ofInt v.toNat)))
  | .ldc index | .ldc2 index => load a index
  | .load _ index =>
    match a.locals[index.toNat]? with
    | some v => do return .proceed (← a.stack.push v)
    | none => .error (.error (.badLocal a.pc index))
  | .pop => do return .proceed (← a.stack.pop a.pc).2
  | .pop2 => do
    let (v, stack) ← a.stack.pop a.pc
    if v.size = 2 then return .proceed stack
    return .proceed (← stack.pop a.pc).2
  | .dup => do
    let (v, _) ← a.stack.pop a.pc
    return .proceed (← a.stack.push v)
  | .dup2 => do
    let (v, stack) ← a.stack.pop a.pc
    if v.size = 2 then return .proceed (← (← stack.push v).push v)
    let (below, stack) ← stack.pop a.pc
    return .proceed (← (← (← (← stack.push below).push v).push below).push v)
  | .convert c => do
    let (v, stack) ← a.stack.popAs a.pc c.source (Value.convert c)
    return .proceed (← stack.push v)
  | .reduce r => do
    let (y, stack) ← a.stack.popKind a.pc r.operand
    let (v, stack) ← stack.popAs a.pc r.operand fun x => Value.reduce r x y
    return .proceed (← stack.push v)
  | .ifZero op target => do
    let (v, stack) ← a.stack.popInt a.pc
    return branchIf (op.holds (compare v.toInt 0)) stack target
  | .ifInt op target => do
    let (y, stack) ← a.stack.popInt a.pc
    let (x, stack) ← stack.popInt a.pc
    return branchIf (op.holds (compare x.toInt y.toInt)) stack target
  | .ifSame op target => do
    let (y, stack) ← a.stack.pop a.pc
    let (x, stack) ← stack.pop a.pc
    let expectReference (v : Value) : Except Fault Unit :=
      if v.kind? = some .reference then .ok ()
      else .error (.error (.unexpectedValue a.pc .reference v.kind?))
    expectReference x
    expectReference y
    match op with
    | .eq => return branchIf (x.same y) stack target
    | .ne => return branchIf (!x.same y) stack target
    | _ => throw (.error (.orderedReferences a.pc op))
  | .ifNull target => do
    let (o, stack) ← a.stack.popReference a.pc
    return branchIf o.isNone stack target
  | .ifNonNull target => do
    let (o, stack) ← a.stack.popReference a.pc
    return branchIf o.isSome stack target
  | .goto target => .ok (.jump a.stack target)
  | .new index =>
    match a.code.constant? index with
    | some (.classRef name) =>
      match m.loader.class? name with
      | some c => .ok (.pushInstance a.stack c.identity)
      | none => .error (.error (.noSuchClass name))
    | _ => .error (.error (.badConstant a.pc index))
  | .invokeSpecial index => do
    let ref ← methodRef a index
    let (arguments, stack) ← a.stack.popMany a.pc ref.method.signature.params.length []
    let (receiver, stack) ← stack.pop a.pc
    if receiver.isNull then throw (.error (.nullReference a.pc (a.code.lineAt? a.pc)))
    match m.specialMethod ref with
    | .ok d => return .call stack d (receiver :: arguments)
    | .error e => throw (.error e)
  | .invokeStatic index => do
    let ref ← methodRef a index
    let (arguments, stack) ← a.stack.popMany a.pc ref.method.signature.params.length []
    match m.staticMethod ref with
    | .ok d => return .call stack d arguments
    | .error e => throw (.error e)
  | .leave none => .ok (.leave none)
  | .leave (some _) => do return .leave (some (← a.stack.pop a.pc).1)

end Machine

end StackCode
