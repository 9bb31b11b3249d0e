import StackCode.Expression.Basic

/-!
# Building expressions

Each builder refuses operands that its code could not be emitted for.
-/

namespace StackCode

namespace Expression

def ofText? : Option String → Except CodegenError Expression
  | some text => .ok (.constant (.string text))
  | none => .error (.argument .absentText)

def nullOf (type : Descriptor) : Except CodegenError Expression :=
  if type.isReference && type.isWellFormed then .ok (.null type)
  else .error (.argument (.notNullable type))

/-- Conversion between numeric types; to its own type an expression is left as it is. -/
def convertTo (e : Expression) (target : Descriptor) : Except CodegenError Expression :=
  if e.resultType = target then .ok e
  else if e.resultType.isNumeric && target.isNumeric then .ok (.convert target e)
  else .error (.argument (.notConvertible e.resultType target))

def isCopyable (type : Descriptor) : Bool := type.isValueType && type.isWellFormed

/-- A comparison of two values of one type. References have no order. -/
def comparing (op : Comparison) (left right : Expression) : Except CodegenError Expression :=
  let type := left.resultType
  if type ≠ right.resultType then .error (.argument (.operandTypes type right.resultType))
  else if !type.isValueType || type.isReference && op.isOrdering then
    .error (.argument (.notComparable type op))
  else .ok (.compare op left right)

def negated (e : Expression) : Except CodegenError Expression := do
  e.checkType .boolean
  return .negate e

def checkArguments : List Expression → List Descriptor → Except CodegenError Unit
  | e :: es, d :: ds => do
    e.checkType d
    checkArguments es ds
  | _, _ => .ok ()

def calling (ref : MethodRef) (arguments : List Expression) : Except CodegenError Expression := do
  let signature := ref.method.signature
  if !signature.returns.isValueType then throw (.argument (.noResult ref))
  if arguments.length ≠ signature.params.length then
    throw (.argument (.argumentCount ref signature.params.length arguments.length))
  checkArguments arguments signature.params
  return .call ref arguments

end Expression

end StackCode
