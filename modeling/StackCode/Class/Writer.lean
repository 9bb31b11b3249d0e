import StackCode.Class.Type
import StackCode.Emitter.Finish
import StackCode.Expression.Emission

/-!
# Classes under construction

A class writer collects finished methods of distinct signatures. A method that is refused leaves the
class as it was.
-/

namespace StackCode

inductive WriteFailure where
  | misuse (m : Misuse)
  | refused (e : CodegenError)

structure ClassWriter where
  access : Access
  thisType : ClassType
  superType : ClassType
  options : EmitOptions
  methods : List MethodDefinition

namespace ClassWriter

def initial (access : Access) (thisType superType : ClassType) (options : EmitOptions) :
    ClassWriter :=
  ⟨access, thisType, superType, options, []⟩

variable (w : ClassWriter)

def beginMethod (access : Access) (m : Method) : Emitter := .initial access m w.options

def addMethod (e : Emitter) : Except CodegenError ClassWriter :=
  if (findMethod? w.methods e.method).isSome then
    .error (.argument (.duplicateMethod e.method w.thisType.className))
  else
    match e.endMethod with
    | .error error => .error error
    | .ok d => .ok { w with methods := w.methods ++ [d] }

/-- The body of a constructor that only calls the superclass's constructor. The receiver is a variable
of the whole body, whose bounds are never branched to. -/
def constructorBody : Except Misuse Emitter := do
  let e := w.beginMethod .publicFlag .nullaryInit
  let (start, e) := e.newDebugLabel
  let (stop, e) := e.newDebugLabel
  let e ← e.mark start
  let this := LocalVariable.receiver w.thisType.descriptor start stop
  let e ← this.generate e
  let e ← e.invokeConstructor w.superType.descriptor .nullaryInit
  let e ← e.returnValue
  this.declare (← e.mark stop)

/-- Adds a public constructor without parameters. Whether the superclass has one is left to the loader
that defines the class. -/
def addDefaultConstructor : Except WriteFailure ClassWriter :=
  match w.constructorBody with
  | .error m => .error (.misuse m)
  | .ok e =>
    match w.addMethod e with
    | .error error => .error (.refused error)
    | .ok w => .ok w

def finish : ClassDefinition :=
  ⟨w.access, w.thisType.internalName, some w.superType.internalName, w.methods⟩

end ClassWriter

end StackCode
