import Std.Data.HashMap
import StackCode.Code.Basic

/-!
# Constant pools under construction

Constants in the order they were first asked for, each once. An index of sixteen bits bounds their
number; a constant too many gets index zero and is remembered as a fault.
-/

namespace StackCode

structure ConstantPool where
  entries : Array Constant
  /-- The index of each entry. -/
  index : Std.HashMap Constant UInt16
  overflowed : Bool

namespace ConstantPool

def capacity : Nat := 65536

def empty : ConstantPool := ⟨#[], ∅, false⟩

/-- The index of a constant, which is added unless it is there. -/
def add (p : ConstantPool) (c : Constant) : UInt16 × ConstantPool :=
  match p.index[c]? with
  | some i => (i, p)
  | none =>
    if p.entries.size < capacity then
      let i := UInt16.ofNat p.entries.size
      (i, ⟨p.entries.push c, p.index.insert c i, p.overflowed⟩)
    else (0, { p with overflowed := true })

end ConstantPool

end StackCode
