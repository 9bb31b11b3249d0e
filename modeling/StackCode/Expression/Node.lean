import StackCode.Expression.Builders

/-!
# Identity of expressions

An expression that is built anew is another one even where it looks the same. A node is an expression
with the number it got when it was built; a conversion to the expression's own type builds nothing. A
node shares its operands with others, so it keeps what is known of its value: constancy is worked out
from the operands' nodes once, when the node is built.
-/

namespace StackCode

namespace Expression

/-! ## Constancy of what the builders give -/

theorem isConstant_of_convertTo {e x : Expression} {target : Descriptor}
    (h : e.convertTo target = .ok x) : x.isConstant = e.isConstant := by
  unfold convertTo at h
  split at h
  · cases h; rfl
  · split at h
    · cases h; rfl
    · cases h

theorem isConstant_of_comparing {op : Comparison} {l r x : Expression}
    (h : comparing op l r = .ok x) : x.isConstant = (l.isConstant && r.isConstant) := by
  simp only [comparing] at h
  split at h
  · cases h
  · split at h
    · cases h
    · cases h; rfl

theorem isConstant_of_negated {e x : Expression} (h : e.negated = .ok x) :
    x.isConstant = e.isConstant := by
  unfold negated checkType at h
  split at h
  · cases h; rfl
  · cases h

end Expression

structure Node where
  number : Nat
  expression : Expression
  isConstant : Bool
  isConstant_eq : isConstant = expression.isConstant

namespace Node

/-- A node for an expression without operands, or for a call, which is never constant. -/
def leaf (number : Nat) (e : Expression) : Node := ⟨number, e, e.isConstant, rfl⟩

/-- Whether two nodes are the same, and not merely alike. -/
def same (a b : Node) : Bool := a.number == b.number

def convertTo (n : Node) (fresh : Nat) (target : Descriptor) : Except CodegenError Node :=
  if n.expression.resultType = target then .ok n
  else
    match h : n.expression.convertTo target with
    | .ok e =>
      .ok ⟨fresh, e, n.isConstant, n.isConstant_eq.trans (Expression.isConstant_of_convertTo h).symm⟩
    | .error e => .error e

def comparing (fresh : Nat) (op : Comparison) (l r : Node) : Except CodegenError Node :=
  match h : Expression.comparing op l.expression r.expression with
  | .ok e => .ok ⟨fresh, e, l.isConstant && r.isConstant, by
      rw [l.isConstant_eq, r.isConstant_eq, Expression.isConstant_of_comparing h]⟩
  | .error e => .error e

def negated (n : Node) (fresh : Nat) : Except CodegenError Node :=
  match h : n.expression.negated with
  | .ok e =>
    .ok ⟨fresh, e, n.isConstant, n.isConstant_eq.trans (Expression.isConstant_of_negated h).symm⟩
  | .error e => .error e

end Node

end StackCode
