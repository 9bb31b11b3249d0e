import StackCode.Class.Definition
import StackCode.Emitter.Basic
import StackCode.Verifier.Check

/-!
# Finishing bodies

A finished body has every label resolved that a branch or a table names, and as many constants as an
index can address.
-/

namespace StackCode

namespace Emitter

variable (e : Emitter)

def unmarkedLabel? : Option Label :=
  (e.labels.findIdx? fun s => s.referenced && s.position.isNone).map Label.mk

def position (l : Label) : Nat :=
  (e.labels[l.index]?.bind LabelState.position).getD 0

/-- The body as it stands, unverified. -/
def code : Code where
  instructions := e.instructions
  constants := e.pool.entries
  labels := e.labels.map fun s => ⟨s.position, s.debugOnly⟩
  locals := e.locals.toList.map fun v =>
    ⟨v.name, v.type, v.index, e.position v.start, e.position v.stop⟩
  lines := e.lines.toList.map fun (line, start) => ⟨e.position start, line⟩
  maxStack := e.maxStack
  maxLocals := e.maxLocals

def finish : Except CodegenError Code :=
  if e.pool.overflowed then .error (.tooManyConstants ConstantPool.capacity)
  else
    match e.unmarkedLabel? with
    | some l => .error (.unmarkedLabel l)
    | none => .ok e.code

def endMethod : Except CodegenError MethodDefinition := do
  let code ← e.finish
  if e.options.verify then
    match (Body.mk code e.access e.method.signature).verify with
    | .error error => throw (.verify error)
    | .ok _ => pure ()
  return ⟨e.access, e.method, .code code⟩

end Emitter

end StackCode
