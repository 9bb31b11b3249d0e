/-!
# Comparison operators

The six predicates that branches test.
-/

namespace StackCode

inductive Comparison where
  | eq | ne | lt | ge | gt | le
deriving DecidableEq

namespace Comparison

def symbol : Comparison → String
  | eq => "EQ"
  | ne => "NE"
  | lt => "LT"
  | ge => "GE"
  | gt => "GT"
  | le => "LE"

def constructorName : Comparison → String
  | eq => "Eq"
  | ne => "Ne"
  | lt => "Lt"
  | ge => "Ge"
  | gt => "Gt"
  | le => "Le"

def all : List Comparison := [eq, ne, lt, ge, gt, le]

def ofSymbol? (s : String) : Option Comparison := all.find? fun op => op.symbol == s

/-- Operators that ask for an order and so make no sense for references. -/
def isOrdering : Comparison → Bool
  | eq | ne => false
  | _ => true

def holds : Comparison → Ordering → Bool
  | eq, o => o == .eq
  | ne, o => o != .eq
  | lt, o => o == .lt
  | ge, o => o != .lt
  | gt, o => o == .gt
  | le, o => o != .gt

/-- Operators that a larger left operand satisfies and a smaller one does not. -/
def isGreater : Comparison → Bool
  | gt | ge => true
  | _ => false

instance : ToString Comparison := ⟨symbol⟩

end Comparison

end StackCode
