import StackCode.Error
import StackCode.Number.Floating

/-!
# Expressions

An expression is a piece of code that leaves one value of its result type on the operand stack.
Builders check the types, so that only sound expressions arise.
-/

namespace StackCode

inductive Literal where
  | bool (value : Bool)
  /-- A UTF-16 code unit. -/
  | char (unit : UInt16)
  | int (value : Int32)
  | long (value : Int64)
  | float (value : Single)
  | double (value : Double)
  | string (text : String)

namespace Literal

def type : Literal → Descriptor
  | bool _ => .boolean
  | char _ => .char
  | int _ => .int
  | long _ => .long
  | float _ => .float
  | double _ => .double
  | string _ => .string

def text : Literal → String
  | bool b => applied "Bool" [toString b]
  | char u => applied "Char" [toString u.toNat]
  | int v => applied "Int" [toString v.toInt]
  | long v => applied "Long" [toString v.toInt]
  | float v => applied "Float" [v.text]
  | double v => applied "Double" [v.text]
  | string s => applied "Str" [quoted s]

/-- Whether two literals have one value. Floating ones compare as numbers: NaN differs from itself, and
the two zeros do not differ. -/
def sameValue : Literal → Literal → Bool
  | bool a, bool b => a == b
  | char a, char b => a == b
  | int a, int b => a == b
  | long a, long b => a == b
  | float a, float b => a.compare? b == some .eq
  | double a, double b => a.compare? b == some .eq
  | string a, string b => a == b
  | _, _ => false

end Literal

inductive Expression where
  | constant (literal : Literal)
  | null (type : Descriptor)
  | load (type : Descriptor) (index : UInt16)
  | convert (type : Descriptor) (operand : Expression)
  /-- Copies the value on top of the stack. -/
  | dup (type : Descriptor)
  | compare (op : Comparison) (left right : Expression)
  | negate (operand : Expression)
  | call (ref : MethodRef) (arguments : List Expression)

namespace Expression

def resultType : Expression → Descriptor
  | constant l => l.type
  | null type | load type _ | convert type _ | dup type => type
  | compare _ _ _ | negate _ => .boolean
  | call ref _ => ref.method.signature.returns

/-- Whether the value is known to be fixed: nothing in the expression looks at locals, at the stack or
at what a method returns. -/
def isConstant : Expression → Bool
  | constant _ | null _ => true
  | load _ _ | dup _ | call _ _ => false
  | convert _ e | negate e => e.isConstant
  | compare _ l r => l.isConstant && r.isConstant

def literal? : Expression → Option Literal
  | constant l => some l
  | _ => none

mutual

def text (e : Expression) : String :=
  labelled "Expression" [("type", e.resultType.text), ("constant", toString e.isConstant),
    ("kind", match e with
      | constant l => applied "Constant" [l.text]
      | null _ => "Null"
      | load _ index => applied "LoadLocal" [toString index.toNat]
      | convert _ operand => applied "NumericConversion" [operand.text]
      | dup _ => "Dup"
      | compare op left right => labelled "Compare"
          [("op", op.constructorName), ("left", left.text), ("right", right.text)]
      | negate operand => applied "LogicalNot" [operand.text]
      | call ref arguments => labelled "InvokeStatic"
          [("method", ref.structureText), ("args", bracketed (texts arguments))])]

def texts : List Expression → List String
  | [] => []
  | e :: es => e.text :: texts es

end

def checkType (e : Expression) (expected : Descriptor) : Except CodegenError Unit :=
  if e.resultType = expected then .ok () else .error (.typeMismatch expected e.resultType)

end Expression

end StackCode
