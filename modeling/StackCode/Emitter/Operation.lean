import StackCode.Expression.Emission

/-!
# Operations on emitters

Every request that an emitter takes, as data, so that a whole emission is a list of operations.
-/

namespace StackCode

inductive Operation where
  | push (literal : Literal)
  | pushNull
  | pushDefault (type : Descriptor)
  | cast (source target : Descriptor)
  | dup
  | dup2
  | pop
  | pop2
  | ifCompare (type : Descriptor) (op : Comparison) (target : Label)
  | ifZero (op : Comparison) (target : Label)
  | ifNull (target : Label)
  | ifNonNull (target : Label)
  | goto (target : Label)
  | newLabel
  | newDebugLabel
  | mark (label : Label)
  | markNew
  | loadThis
  | loadLocal (index : UInt16) (type : Descriptor)
  | newInstance (type : Descriptor)
  | invokeConstructor (owner : Descriptor) (method : Method)
  | invokeStatic (ref : MethodRef)
  | returnValue
  | visitLocal (entry : LocalVariable)
  | visitLine (line : Nat) (start : Label)
  | generate (expression : Expression)

namespace Operation

/-- Whether the operation makes a label, which then is the last one. -/
def makesLabel : Operation → Bool
  | newLabel | newDebugLabel | markNew => true
  | _ => false

def apply (o : Operation) (e : Emitter) : Except Misuse Emitter :=
  match o with
  | push literal => .ok (e.pushLiteral literal)
  | pushNull => .ok e.pushNull
  | pushDefault type => e.pushDefault type
  | cast source target => e.cast source target
  | dup => .ok e.dup
  | dup2 => .ok e.dup2
  | pop => e.pop
  | pop2 => e.pop2
  | ifCompare type op target => e.ifCompare type op target
  | ifZero op target => e.ifZero op target
  | ifNull target => e.ifNull target
  | ifNonNull target => e.ifNonNull target
  | goto target => e.goto target
  | newLabel => .ok e.newLabel.2
  | newDebugLabel => .ok e.newDebugLabel.2
  | mark label => e.mark label
  | markNew => do return (← e.markNew).2
  | loadThis => e.loadThis
  | loadLocal index type => e.loadLocal index type
  | newInstance type => e.newInstance type
  | invokeConstructor owner method => e.invokeConstructor owner method
  | invokeStatic ref => e.invokeStatic ref
  | returnValue => e.returnValue
  | visitLocal v => v.declare e
  | visitLine line start => e.visitLine line start
  | generate x => x.generate e

end Operation

def Emitter.applyAll : List Operation → Emitter → Except Misuse Emitter
  | [], e => .ok e
  | o :: os, e => do applyAll os (← o.apply e)

end StackCode
