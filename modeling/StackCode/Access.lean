/-!
# Access flags

Flags of classes and methods, one bit each.
-/

namespace StackCode

structure Access where
  bits : UInt16
deriving DecidableEq

namespace Access

def none : Access := ⟨0⟩
def publicFlag : Access := ⟨0x0001⟩
def privateFlag : Access := ⟨0x0002⟩
def staticFlag : Access := ⟨0x0008⟩
def finalFlag : Access := ⟨0x0010⟩
def abstractFlag : Access := ⟨0x0400⟩

def named : List (String × Access) :=
  [("PUBLIC", publicFlag), ("PRIVATE", privateFlag), ("STATIC", staticFlag),
    ("FINAL", finalFlag), ("ABSTRACT", abstractFlag)]

def union (a b : Access) : Access := ⟨a.bits ||| b.bits⟩

/-- Whether all flags of the second are set in the first. -/
def contains (a b : Access) : Bool := a.bits &&& b.bits == b.bits

def isStatic (a : Access) : Bool := a.contains staticFlag

def structureText (a : Access) : String := s!"Access({a.bits.toNat})"

end Access

end StackCode
