import StackCode.Machine.Error

/-!
# Operand stacks

The stack of one activation, top first, with its height in slots. A push asserts that the height stays
within the declared limit. Assertions are taken to be checked, as in debug builds, so a push above the
limit stops the machine: no verified body makes one.
-/

namespace StackCode

/-- What stops an instruction: an error of the running program, or a stack above its limit. -/
inductive Fault where
  | error (e : ExecutionError)
  | overflow (slots limit : Nat)
deriving DecidableEq

def overflowMessage (slots limit : Nat) : String :=
  s!"Stack overflow: {slots} slots exceed max_stack of {limit}"

structure Stack where
  values : List Value
  slots : Nat
  limit : Nat

namespace Stack

def empty (limit : Nat) : Stack := ⟨[], 0, limit⟩

def push (s : Stack) (v : Value) : Except Fault Stack :=
  let slots := s.slots + v.size
  if slots ≤ s.limit then .ok ⟨v :: s.values, slots, s.limit⟩ else .error (.overflow slots s.limit)

def pop (s : Stack) (pc : Nat) : Except Fault (Value × Stack) :=
  match s.values with
  | [] => .error (.error (.stackUnderflow pc))
  | v :: values => .ok (v, ⟨values, s.slots - v.size, s.limit⟩)

def popAs (s : Stack) (pc : Nat) (expected : Kind) (view : Value → Option α) :
    Except Fault (α × Stack) := do
  let (v, s) ← s.pop pc
  match view v with
  | some a => return (a, s)
  | none => throw (.error (.unexpectedValue pc expected v.kind?))

def popInt (s : Stack) (pc : Nat) : Except Fault (Int32 × Stack) :=
  s.popAs pc .int Value.int?

def popKind (s : Stack) (pc : Nat) (expected : Kind) : Except Fault (Value × Stack) :=
  s.popAs pc expected fun v => if v.kind? = some expected then some v else none

def popReference (s : Stack) (pc : Nat) : Except Fault (Option Object × Stack) :=
  s.popAs pc .reference Value.reference?

/-- Pops several values; the one popped last comes first. -/
def popMany (s : Stack) (pc : Nat) : Nat → List Value → Except Fault (List Value × Stack)
  | 0, taken => .ok (taken, s)
  | n + 1, taken => do
    let (v, s) ← s.pop pc
    s.popMany pc n (v :: taken)

def contents (s : Stack) : List Value := s.values.reverse

end Stack

end StackCode
