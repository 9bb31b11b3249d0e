/-!
# Primitive types

The eight primitive types, each with its source name and its one-character code in descriptors.
-/

namespace StackCode

inductive Primitive where
  | boolean | byte | short | char | int | long | float | double
deriving DecidableEq, Hashable

namespace Primitive

def all : List Primitive := [boolean, byte, short, char, int, long, float, double]

def name : Primitive → String
  | boolean => "boolean"
  | byte => "byte"
  | short => "short"
  | char => "char"
  | int => "int"
  | long => "long"
  | float => "float"
  | double => "double"

def code : Primitive → Char
  | boolean => 'Z'
  | byte => 'B'
  | short => 'S'
  | char => 'C'
  | int => 'I'
  | long => 'J'
  | float => 'F'
  | double => 'D'

def ofCode? (c : Char) : Option Primitive :=
  all.find? fun p => p.code == c

def ofName? (name : String) : Option Primitive :=
  all.find? fun p => p.name == name

/-- Slots on the operand stack or among the locals. -/
def size : Primitive → Nat
  | long | double => 2
  | _ => 1

def isNumeric : Primitive → Bool
  | boolean => false
  | _ => true

def isIntLike : Primitive → Bool
  | long | float | double => false
  | _ => true

def constructorName : Primitive → String
  | boolean => "Boolean"
  | byte => "Byte"
  | short => "Short"
  | char => "Char"
  | int => "Int"
  | long => "Long"
  | float => "Float"
  | double => "Double"

theorem ofCode?_code (p : Primitive) : ofCode? p.code = some p := by
  cases p <;> rfl

theorem code_of_ofCode? {c : Char} {p : Primitive} (h : ofCode? c = some p) : p.code = c := by
  simpa using List.find?_some h

theorem ofName?_name (p : Primitive) : ofName? p.name = some p := by
  cases p <;> rfl

theorem name_of_ofName? {s : String} {p : Primitive} (h : ofName? s = some p) : p.name = s := by
  simpa using List.find?_some h

end Primitive

end StackCode
