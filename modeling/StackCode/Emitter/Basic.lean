import StackCode.Access
import StackCode.Emitter.Misuse
import StackCode.Emitter.Pool
import StackCode.Options

/-!
# Emitters

An emitter collects the body of one method and tracks the height of the operand stack in slots. After a
jump or a return the height is unknown until a label is marked that some branch went to; debug labels
never make it known again.
-/

namespace StackCode

structure LabelState where
  position : Option Nat
  debugOnly : Bool
  /-- The height on entry, once a branch or control from above fixes it. -/
  depth : Option Nat
  /-- The target of a branch, or a bound in a table. -/
  referenced : Bool

structure PendingLocal where
  name : String
  type : Descriptor
  index : UInt16
  start : Label
  stop : Label

structure Emitter where
  access : Access
  method : Method
  options : EmitOptions
  instructions : Array Instruction
  pool : ConstantPool
  labels : Array LabelState
  locals : Array PendingLocal
  lines : Array (Nat × Label)
  /-- The height of the operand stack; unknown where control does not come. -/
  depth : Option Nat
  maxStack : Nat
  maxLocals : Nat

namespace Emitter

def initial (access : Access) (method : Method) (options : EmitOptions) : Emitter where
  access := access
  method := method
  options := options
  instructions := #[]
  pool := .empty
  labels := #[]
  locals := #[]
  lines := #[]
  depth := some 0
  maxStack := 0
  maxLocals := (if access.isStatic then 0 else 1) + method.signature.argumentSlots

/-! ## Height and instructions -/

def grow (slots : Nat) (e : Emitter) : Emitter :=
  match e.depth with
  | some d => { e with depth := some (d + slots), maxStack := max e.maxStack (d + slots) }
  | none => e

def shrink (slots : Nat) (e : Emitter) : Except Misuse Emitter :=
  match e.depth with
  | some d => if slots ≤ d then .ok { e with depth := some (d - slots) }
    else .error (.stackUnderflow slots d)
  | none => .ok e

def append (i : Instruction) (e : Emitter) : Emitter :=
  { e with instructions := e.instructions.push i }

def effect (i : Instruction) (pops pushes : Nat) (e : Emitter) : Except Misuse Emitter := do
  return (← (e.append i).shrink pops).grow pushes

def withConstant (c : Constant) (instruction : UInt16 → Instruction) (e : Emitter) : Emitter :=
  let (i, pool) := e.pool.add c
  { e with pool := pool, instructions := e.instructions.push (instruction i) }

/-! ## Literals -/

def pushBool (b : Bool) (e : Emitter) : Emitter :=
  (e.append (.iconst (if b then 1 else 0))).grow 1

def pushInt (v : Int32) (e : Emitter) : Emitter :=
  let n := v.toInt
  let e :=
    if -1 ≤ n ∧ n ≤ 5 then e.append (.iconst v.toInt8)
    else if -128 ≤ n ∧ n < 128 then e.append (.bipush v.toInt8)
    else if -32768 ≤ n ∧ n < 32768 then e.append (.sipush v.toInt16)
    else e.withConstant (.int v) .ldc
  e.grow 1

def pushChar (unit : UInt16) (e : Emitter) : Emitter :=
  e.pushInt (.ofNat unit.toNat)

def pushLong (v : Int64) (e : Emitter) : Emitter :=
  let e :=
    if v = 0 then e.append (.lconst 0)
    else if v = 1 then e.append (.lconst 1)
    else e.withConstant (.long v) .ldc2
  e.grow 2

/-- Pushes a float. Only the very bits of 0, 1 and 2 have instructions of their own. -/
def pushFloat (v : Single) (e : Emitter) : Emitter :=
  let e := match ([0, 1, 2] : List UInt8).find? fun n => Single.ofInt n.toNat == v with
    | some n => e.append (.fconst n)
    | none => e.withConstant (.float v) .ldc
  e.grow 1

/-- Pushes a double. Only the very bits of 0 and 1 have instructions of their own. -/
def pushDouble (v : Double) (e : Emitter) : Emitter :=
  let e := match ([0, 1] : List UInt8).find? fun n => Double.ofInt n.toNat == v with
    | some n => e.append (.dconst n)
    | none => e.withConstant (.double v) .ldc2
  e.grow 2

def pushString (text : String) (e : Emitter) : Emitter :=
  (e.withConstant (.string text) .ldc).grow 1

def pushNull (e : Emitter) : Emitter :=
  (e.append .aconstNull).grow 1

def pushLiteral : Literal → Emitter → Emitter
  | .bool b => pushBool b
  | .char u => pushChar u
  | .int v => pushInt v
  | .long v => pushLong v
  | .float v => pushFloat v
  | .double v => pushDouble v
  | .string s => pushString s

def pushDefault (type : Descriptor) (e : Emitter) : Except Misuse Emitter :=
  if Expression.isCopyable type then
    match type with
    | .primitive .long => .ok (e.pushLong 0)
    | .primitive .float => .ok (e.pushFloat (.ofInt 0))
    | .primitive .double => .ok (e.pushDouble (.ofInt 0))
    | .primitive _ => .ok (e.pushInt 0)
    | _ => .ok e.pushNull
  else .error (.noDefault type)

/-! ## Stack operations -/

def dup (e : Emitter) : Emitter := (e.append .dup).grow 1

def dup2 (e : Emitter) : Emitter := (e.append .dup2).grow 2

def pop (e : Emitter) : Except Misuse Emitter := e.effect .pop 1 0

def pop2 (e : Emitter) : Except Misuse Emitter := e.effect .pop2 2 0

def narrowing : Primitive → List Conversion
  | .byte => [.i2b]
  | .char => [.i2c]
  | .short => [.i2s]
  | _ => []

/-- The conversions between two numeric types; targets below int go through int. -/
def conversions (source target : Primitive) : List Conversion :=
  if source = target then []
  else
    match source.kind, target.kind with
    | .int, .long => [.i2l]
    | .int, .float => [.i2f]
    | .int, .double => [.i2d]
    | .int, _ => narrowing target
    | .long, .float => [.l2f]
    | .long, .double => [.l2d]
    | .long, _ => .l2i :: narrowing target
    | .float, .long => [.f2l]
    | .float, .double => [.f2d]
    | .float, _ => .f2i :: narrowing target
    | .double, .long => [.d2l]
    | .double, .float => [.d2f]
    | .double, _ => .d2i :: narrowing target
    | .reference, _ => []

def convertAll : List Conversion → Emitter → Except Misuse Emitter
  | [], e => .ok e
  | c :: cs, e => do convertAll cs (← e.effect (.convert c) c.source.size c.target.size)

def cast (source target : Descriptor) (e : Emitter) : Except Misuse Emitter :=
  match source, target with
  | .primitive s, .primitive t =>
    if s = t then .ok e
    else if s.isNumeric && t.isNumeric then e.convertAll (conversions s t)
    else .error (.notNumeric s t)
  | _, _ => .error (.notCastable source target)

/-! ## Labels and branches -/

def allocateLabel (debugOnly : Bool) (e : Emitter) : Label × Emitter :=
  (⟨e.labels.size⟩, { e with labels := e.labels.push ⟨none, debugOnly, none, false⟩ })

def newLabel (e : Emitter) : Label × Emitter := e.allocateLabel false

/-- A label for tables only, which no branch may go to. -/
def newDebugLabel (e : Emitter) : Label × Emitter := e.allocateLabel true

def label (l : Label) (e : Emitter) : Except Misuse LabelState :=
  match e.labels[l.index]? with
  | some s => .ok s
  | none => .error (.noSuchLabel e.labels.size l.index)

def setLabel (l : Label) (s : LabelState) (e : Emitter) : Emitter :=
  { e with labels := e.labels.setIfInBounds l.index s }

def refer (l : Label) (e : Emitter) : Except Misuse Emitter := do
  return e.setLabel l { ← e.label l with referenced := true }

def branchTo (l : Label) (e : Emitter) : Except Misuse Emitter := do
  let s ← e.label l
  let s := { s with referenced := true }
  match s.depth, e.depth with
  | none, some d => return e.setLabel l { s with depth := some d }
  | some expected, some d =>
    if expected = d then return e.setLabel l s else throw (.branchDepth l expected d)
  | _, none => return e.setLabel l s

def mark (l : Label) (e : Emitter) : Except Misuse Emitter := do
  let s ← e.label l
  if s.position.isSome then throw (.markedTwice l)
  let s := { s with position := some e.instructions.size }
  if s.debugOnly then return e.setLabel l s
  match e.depth, s.depth with
  | none, depth => return { e.setLabel l s with depth := depth }
  | some d, none => return e.setLabel l { s with depth := some d }
  | some d, some expected =>
    if expected = d then return e.setLabel l s else throw (.fallthroughDepth l expected d)

def markNew (e : Emitter) : Except Misuse (Label × Emitter) := do
  let (l, e) := e.newLabel
  return (l, ← e.mark l)

def branch (i : Instruction) (pops : Nat) (l : Label) (e : Emitter) : Except Misuse Emitter := do
  (← e.effect i pops 0).branchTo l

def ifZero (op : Comparison) (l : Label) (e : Emitter) : Except Misuse Emitter :=
  e.branch (.ifZero op l) 1 l

def ifNull (l : Label) (e : Emitter) : Except Misuse Emitter := e.branch (.ifNull l) 1 l

def ifNonNull (l : Label) (e : Emitter) : Except Misuse Emitter := e.branch (.ifNonNull l) 1 l

def goto (l : Label) (e : Emitter) : Except Misuse Emitter := do
  return { ← e.branch (.goto l) 0 l with depth := none }

def ifReduced (r : Reduction) (op : Comparison) (l : Label) (e : Emitter) : Except Misuse Emitter := do
  (← e.effect (.reduce r) (2 * r.operand.size) 1).ifZero op l

/-- Branches if an operator holds between the two values of a type on top of the stack. NaN must make
the greater operators fail, so these use the reductions that give -1 for it. -/
def ifCompare (type : Descriptor) (op : Comparison) (l : Label) (e : Emitter) :
    Except Misuse Emitter :=
  match type with
  | .primitive .long => e.ifReduced .lcmp op l
  | .primitive .double => e.ifReduced (if op.isGreater then .dcmpl else .dcmpg) op l
  | .primitive .float => e.ifReduced (if op.isGreater then .fcmpl else .fcmpg) op l
  | .primitive _ => e.branch (.ifInt op l) 2 l
  | .object _ | .array _ =>
    if op.isOrdering then .error (.orderedReferences op type) else e.branch (.ifSame op l) 2 l
  | .void | .method _ _ => .error (.notComparable type)

/-! ## Locals, objects and calls -/

def reserve (index : UInt16) (type : Descriptor) (e : Emitter) : Emitter :=
  { e with maxLocals := max e.maxLocals (index.toNat + type.size) }

def loadThis (e : Emitter) : Except Misuse Emitter :=
  if e.access.isStatic then .error (.noReceiver e.method)
  else .ok ((e.append (.load .reference 0)).grow 1)

def loadLocal (index : UInt16) (type : Descriptor) (e : Emitter) : Except Misuse Emitter :=
  match type.kind? with
  | some kind => .ok (((e.append (.load kind index)).grow type.size).reserve index type)
  | none => .error (.notLoadable type)

def newInstance (type : Descriptor) (e : Emitter) : Except Misuse Emitter :=
  match type with
  | .object name => .ok ((e.withConstant (.classRef name) .new).grow 1)
  | _ => .error (.notInstantiable type)

def invokeConstructor (owner : Descriptor) (m : Method) (e : Emitter) : Except Misuse Emitter :=
  match owner with
  | .object name => do
    let e := e.withConstant (.method ⟨name, m⟩) .invokeSpecial
    return (← e.shrink (1 + m.signature.argumentSlots)).grow m.signature.returns.size
  | _ => .error (.noConstructors owner)

def invokeStatic (ref : MethodRef) (e : Emitter) : Except Misuse Emitter := do
  let e := e.withConstant (.method ref) .invokeStatic
  return (← e.shrink ref.method.signature.argumentSlots).grow ref.method.signature.returns.size

def returnValue (e : Emitter) : Except Misuse Emitter :=
  match e.method.signature.returns with
  | .method ps r => .error (.notReturnable (.method ps r))
  | type => do return { ← e.effect (.leave type.kind?) type.size 0 with depth := none }

/-! ## Tables -/

/-- Records a variable. Without debug information only its slots are kept. -/
def visitLocal (name : String) (type : Descriptor) (start stop : Label) (index : UInt16)
    (e : Emitter) : Except Misuse Emitter := do
  let e := e.reserve index type
  if !e.options.debugInfo then return e
  let e ← (← e.refer start).refer stop
  return { e with locals := e.locals.push ⟨name, type, index, start, stop⟩ }

def visitLine (line : Nat) (start : Label) (e : Emitter) : Except Misuse Emitter := do
  if !e.options.debugInfo then return e
  let e ← e.refer start
  return { e with lines := e.lines.push (line, start) }

end Emitter

end StackCode
