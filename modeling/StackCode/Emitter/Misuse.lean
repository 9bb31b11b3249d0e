import StackCode.Expression.Builders

/-!
# Misuse of an emitter

What a caller must not ask of an emitter. An emitter that was misused is of no further use.
-/

namespace StackCode

inductive Misuse where
  | stackUnderflow (slots depth : Nat)
  /-- A branch to a label that is entered with another depth. -/
  | branchDepth (label : Label) (expected found : Nat)
  /-- A label marked where the depth is not the one it is entered with. -/
  | fallthroughDepth (label : Label) (expected found : Nat)
  | markedTwice (label : Label)
  /-- A label that the emitter never made. -/
  | noSuchLabel (count index : Nat)
  | notCastable (source target : Descriptor)
  | notNumeric (source target : Primitive)
  | orderedReferences (op : Comparison) (type : Descriptor)
  | notComparable (type : Descriptor)
  | noReceiver (method : Method)
  | notLoadable (type : Descriptor)
  | notInstantiable (type : Descriptor)
  | noConstructors (type : Descriptor)
  | notReturnable (type : Descriptor)
  | notCopyable (type : Descriptor)
  | noDefault (type : Descriptor)
  /-- An expression that did not leave exactly one value of its type. -/
  | height (e : Expression) (found expected : Nat)

def unequalReport (what : String) (left right : Nat) : String :=
  s!"assertion `left == right` failed: {what}\n  left: {left}\n right: {right}"

def Misuse.message : Misuse → String
  | stackUnderflow slots depth => s!"Stack underflow: trying to pop {slots} but depth is {depth}"
  | branchDepth label expected found =>
    unequalReport s!"stack depth mismatch at branch to {label}" expected found
  | fallthroughDepth label expected found =>
    unequalReport s!"stack depth mismatch on fallthrough into {label}" expected found
  | markedTwice label => s!"{label} is marked twice"
  | noSuchLabel count index => s!"index out of bounds: the len is {count} but the index is {index}"
  | notCastable source target => s!"cannot cast from {source} to {target}"
  | notNumeric source target => s!"cannot cast from {source.name} to {target.name}"
  | orderedReferences op type => s!"bad comparison operator {op} for type {type}"
  | notComparable type => s!"cannot compare values of type {type}"
  | noReceiver method => s!"no receiver in static method {method}"
  | notLoadable type => s!"cannot load a local of type {type}"
  | notInstantiable type => s!"cannot instantiate {type}"
  | noConstructors type => s!"{type} has no constructors"
  | notReturnable type => s!"{type} is not a return type"
  | notCopyable type => s!"cannot dup() {type}"
  | noDefault type => s!"unexpected sort for type {type}"
  | height e found expected =>
    unequalReport s!"{e.text} must push exactly one {e.resultType}" found expected

def Expression.copying (type : Descriptor) : Except Misuse Expression :=
  if isCopyable type then .ok (.dup type) else .error (.notCopyable type)

end StackCode
