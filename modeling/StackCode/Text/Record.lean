/-!
# Text of structured values

A constructor with positional arguments is written `Name(a, b)`, one with named fields
`Name { a: x, b: y }`, and a list `[x, y]`.
-/

namespace StackCode

def commaSeparated (parts : List String) : String :=
  ", ".intercalate parts

def bracketed (parts : List String) : String :=
  "[" ++ commaSeparated parts ++ "]"

/-- A constructor with its written arguments; a constant has none and no parentheses. -/
def applied (name : String) (arguments : List String) : String :=
  match arguments with
  | [] => name
  | _ => name ++ "(" ++ commaSeparated arguments ++ ")"

def labelled (name : String) (fields : List (String × String)) : String :=
  name ++ " \x7b " ++ commaSeparated (fields.map fun (field, value) => field ++ ": " ++ value)
    ++ " \x7d"

end StackCode
