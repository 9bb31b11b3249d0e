import StackCode.Instruction
import StackCode.Method
import StackCode.Number.Floating

/-!
# Method bodies

A finished body: instructions, the constants they name by index, the positions of labels, and the tables
that relate positions to source lines and variables.
-/

namespace StackCode

/-- An entry of a constant pool. Floating numbers are distinguished by their bits. -/
inductive Constant where
  | int (value : Int32)
  | float (value : Single)
  | long (value : Int64)
  | double (value : Double)
  | string (text : String)
  /-- A class by its internal name. -/
  | classRef (name : String)
  | method (ref : MethodRef)
deriving DecidableEq, Hashable

namespace Constant

def isWide : Constant → Bool
  | long _ | double _ => true
  | _ => false

def text : Constant → String
  | int v => applied "Int" [toString v.toInt]
  | float v => applied "Float" [v.text]
  | long v => applied "Long" [toString v.toInt]
  | double v => applied "Double" [v.text]
  | string s => applied "String" [quoted s]
  | classRef n => applied "Class" [quoted n]
  | method r => applied "Method" [r.structureText]

end Constant

/-- Where a label ended up. Debug labels carry positions for tables and are no branch targets. -/
structure LabelInfo where
  position : Option Nat
  debugOnly : Bool
deriving DecidableEq

/-- A variable in a slot, live from `start` up to but not including `stop`. -/
structure LocalEntry where
  name : String
  type : Descriptor
  index : UInt16
  start : Nat
  stop : Nat
deriving DecidableEq

structure LineEntry where
  pc : Nat
  line : Nat
deriving DecidableEq

structure Code where
  instructions : Array Instruction
  constants : Array Constant
  labels : Array LabelInfo
  locals : List LocalEntry
  lines : List LineEntry
  /-- The greatest height of the operand stack, in slots. -/
  maxStack : Nat
  /-- Local slots, receiver and parameters included. -/
  maxLocals : Nat
deriving DecidableEq

namespace Code

def constant? (code : Code) (index : UInt16) : Option Constant :=
  code.constants[index.toNat]?

def labelInfo? (code : Code) (label : Label) : Option LabelInfo :=
  code.labels[label.index]?

def position? (code : Code) (label : Label) : Option Nat :=
  (code.labelInfo? label).bind LabelInfo.position

/-- The entry with the greatest position up to `pc`; the later of two at one position. -/
def lineEntryAt? (pc : Nat) : List LineEntry → Option LineEntry
  | [] => none
  | e :: rest =>
    match lineEntryAt? pc rest with
    | some best => if e.pc ≤ pc ∧ best.pc < e.pc then some e else some best
    | none => if e.pc ≤ pc then some e else none

def lineAt? (code : Code) (pc : Nat) : Option Nat :=
  (lineEntryAt? pc code.lines).map LineEntry.line

end Code

end StackCode
