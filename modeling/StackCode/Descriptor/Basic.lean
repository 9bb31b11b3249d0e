import StackCode.Descriptor.Primitive
import StackCode.Text.Record
import StackCode.Text.Quoted

/-!
# Type descriptors

A descriptor names what a value, a result or a method looks like. Its text is a primitive's code, `V`,
`Lname;`, `[` before an element, or `(parameters)result`. A `Signature` is what a method descriptor
holds; methods have a `ProperSignature`, over types that have values.
-/

namespace StackCode

inductive Descriptor where
  | primitive (kind : Primitive)
  | void
  /-- A class by its internal name, with slashes between packages. -/
  | object (name : String)
  | array (element : Descriptor)
  | method (params : List Descriptor) (returns : Descriptor)

namespace Descriptor

mutual

def decEq : (a b : Descriptor) → Decidable (a = b)
  | primitive a, primitive b =>
    if h : a = b then isTrue (by rw [h]) else isFalse (by simpa using h)
  | void, void => isTrue rfl
  | object a, object b => if h : a = b then isTrue (by rw [h]) else isFalse (by simpa using h)
  | array a, array b =>
    match decEq a b with
    | isTrue h => isTrue (by rw [h])
    | isFalse h => isFalse (by simpa using h)
  | method ps r, method qs s =>
    match decEqList ps qs, decEq r s with
    | isTrue h, isTrue h' => isTrue (by rw [h, h'])
    | isFalse h, _ => isFalse (by simp [h])
    | _, isFalse h => isFalse (by simp [h])
  | primitive _, void | primitive _, object _ | primitive _, array _ | primitive _, method _ _
  | void, primitive _ | void, object _ | void, array _ | void, method _ _
  | object _, primitive _ | object _, void | object _, array _ | object _, method _ _
  | array _, primitive _ | array _, void | array _, object _ | array _, method _ _
  | method _ _, primitive _ | method _ _, void | method _ _, object _ | method _ _, array _ =>
    isFalse (by simp)

def decEqList : (as bs : List Descriptor) → Decidable (as = bs)
  | [], [] => isTrue rfl
  | [], _ :: _ | _ :: _, [] => isFalse (by simp)
  | a :: as, b :: bs =>
    match decEq a b, decEqList as bs with
    | isTrue h, isTrue h' => isTrue (by rw [h, h'])
    | isFalse h, _ => isFalse (by simp [h])
    | _, isFalse h => isFalse (by simp [h])

end

instance : DecidableEq Descriptor := decEq

mutual

def hash : Descriptor → UInt64
  | primitive kind => mixHash 3 (Hashable.hash kind)
  | void => 5
  | object name => mixHash 7 (Hashable.hash name)
  | array element => mixHash 11 element.hash
  | method params returns => mixHash (hashList params) returns.hash

def hashList : List Descriptor → UInt64
  | [] => 13
  | d :: ds => mixHash d.hash (hashList ds)

end

instance : Hashable Descriptor := ⟨hash⟩

mutual

def chars : Descriptor → List Char
  | primitive kind => [kind.code]
  | void => ['V']
  | object name => 'L' :: name.toList ++ [';']
  | array element => '[' :: element.chars
  | method params returns => '(' :: listChars params ++ ')' :: returns.chars

def listChars : List Descriptor → List Char
  | [] => []
  | d :: ds => d.chars ++ listChars ds

end

def text (d : Descriptor) : String := String.ofList d.chars

instance : ToString Descriptor := ⟨text⟩

abbrev boolean : Descriptor := primitive .boolean
abbrev char : Descriptor := primitive .char
abbrev int : Descriptor := primitive .int
abbrev long : Descriptor := primitive .long
abbrev float : Descriptor := primitive .float
abbrev double : Descriptor := primitive .double

def rootClassName : String := "java/lang/Object"

def stringClassName : String := "java/lang/String"

def replaceChar (old new : Char) (name : String) : String :=
  String.ofList (name.toList.map fun c => if c = old then new else c)

def ofName (name : String) : Descriptor := object (replaceChar '.' '/' name)

def string : Descriptor := ofName stringClassName

/-- Slots of a value of the type; `void` and method shapes take none. -/
def size : Descriptor → Nat
  | primitive kind => kind.size
  | void | method _ _ => 0
  | object _ | array _ => 1

def slots : List Descriptor → Nat
  | [] => 0
  | d :: ds => d.size + slots ds

def primitive? : Descriptor → Option Primitive
  | primitive kind => some kind
  | _ => none

def isNumeric (d : Descriptor) : Bool :=
  d.primitive?.any Primitive.isNumeric

def isReference : Descriptor → Bool
  | object _ | array _ => true
  | _ => false

/-- Whether values of the type can lie in a local or on the stack. -/
def isValueType : Descriptor → Bool
  | void | method _ _ => false
  | _ => true

/-- No array, at any depth, has `void` or a method shape as its element. -/
def isWellFormed : Descriptor → Bool
  | array element => element.isValueType && element.isWellFormed
  | _ => true

def element? : Descriptor → Option Descriptor
  | array element => some element
  | _ => none

def dimensions : Descriptor → Nat
  | array element => element.dimensions + 1
  | _ => 0

def internalName? : Descriptor → Option String
  | object name => some name
  | d@(array _) => some d.text
  | _ => none

/-- The name at source level: dots in class names, brackets after element types. -/
def className : Descriptor → String
  | primitive kind => kind.name
  | void => "void"
  | object name => replaceChar '/' '.' name
  | array element => element.className ++ "[]"
  | d@(method _ _) => d.text

/-- `n` array levels around a type, unchecked. -/
def nest : Nat → Descriptor → Descriptor
  | 0, d => d
  | n + 1, d => array (nest n d)

mutual

def structureText : Descriptor → String
  | primitive kind => applied "Primitive" [kind.constructorName]
  | void => "Void"
  | object name => applied "Object" [quoted name]
  | array element => applied "Array" [element.structureText]
  | method params returns => applied "Method" [labelled "MethodDescriptor"
      [("params", bracketed (structureTexts params)), ("return_type", returns.structureText)]]

def structureTexts : List Descriptor → List String
  | [] => []
  | d :: ds => d.structureText :: structureTexts ds

end

end Descriptor

/-- What a method descriptor holds: parameters and a result, of any types. -/
structure Signature where
  params : List Descriptor
  returns : Descriptor
deriving DecidableEq, Hashable

namespace Signature

def toDescriptor (s : Signature) : Descriptor := .method s.params s.returns

def text (s : Signature) : String := s.toDescriptor.text

instance : ToString Signature := ⟨text⟩

def argumentSlots (s : Signature) : Nat := Descriptor.slots s.params

def structureText (s : Signature) : String :=
  labelled "MethodDescriptor"
    [("params", bracketed (Descriptor.structureTexts s.params)),
      ("return_type", s.returns.structureText)]

end Signature

/-- A signature that a method can have: it takes values, and gives one or none. -/
structure ProperSignature extends Signature where
  params_isValueType : ∀ p ∈ params, p.isValueType = true := by decide
  returns_isResult : returns = .void ∨ returns.isValueType = true := by decide
deriving DecidableEq, Hashable

def ProperSignature.nullaryVoid : ProperSignature where
  params := []
  returns := .void

end StackCode
