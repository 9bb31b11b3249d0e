import StackCode.Emitter.Basic

/-!
# Emitting expressions

`Expression.generate` emits an expression and checks that it raised the height by the size of its type.
Comparisons and negations have two paths, one for each boolean, which meet again.
-/

namespace StackCode

/-- Pushes `taken` where a branch is taken and its negation where not; `branch` emits the branch. -/
def Emitter.pushBranch (branch : Label → Emitter → Except Misuse Emitter) (taken : Bool)
    (e : Emitter) : Except Misuse Emitter := do
  let (ifTaken, e) := e.newLabel
  let (stop, e) := e.newLabel
  let e ← branch ifTaken e
  let e ← (e.pushBool !taken).goto stop
  let e ← e.mark ifTaken
  (e.pushBool taken).mark stop

namespace Expression

/-- Fails unless the height rose by the size of the expression's type. -/
def checkHeight (x : Expression) (before : Option Nat) (e : Emitter) : Except Misuse Emitter :=
  match before, e.depth with
  | some before, some after =>
    if after = before + x.resultType.size then .ok e
    else .error (.height x after (before + x.resultType.size))
  | _, _ => .ok e

mutual

def generate (x : Expression) (e : Emitter) : Except Misuse Emitter := do
  let before := e.depth
  let e ← match x with
    | constant l => .ok (e.pushLiteral l)
    | null _ => .ok e.pushNull
    | load type index => e.loadLocal index type
    | convert type operand => do (← operand.generate e).cast operand.resultType type
    | dup type => .ok (if type.size = 2 then e.dup2 else e.dup)
    | compare op left right => do
      let e ← right.generate (← left.generate e)
      e.pushBranch (Emitter.ifCompare left.resultType op) true
    | negate operand => do
      (← operand.generate e).pushBranch (Emitter.ifZero .ne) false
    | call ref arguments => do (← generateAll arguments e).invokeStatic ref
  checkHeight x before e

def generateAll : List Expression → Emitter → Except Misuse Emitter
  | [], e => .ok e
  | x :: xs, e => do generateAll xs (← x.generate e)

end

end Expression

structure LocalVariable where
  name : String
  type : Descriptor
  index : UInt16
  start : Label
  stop : Label

namespace LocalVariable

def receiver (type : Descriptor) (start stop : Label) : LocalVariable :=
  ⟨"this", type, 0, start, stop⟩

def expression (v : LocalVariable) : Expression := .load v.type v.index

def generate (v : LocalVariable) (e : Emitter) : Except Misuse Emitter := v.expression.generate e

def declare (v : LocalVariable) (e : Emitter) : Except Misuse Emitter :=
  e.visitLocal v.name v.type v.start v.stop v.index

end LocalVariable

end StackCode
