import StackCode.Text.Visible

/-!
# Quoted text

Text between double quotes on one line. The quote, the backslash and four control characters have
short escapes; any other character that does not stand for itself is written by its code point.
-/

namespace StackCode

/-- The digits of a number in base sixteen, lower case, without leading zeros. -/
def hexadecimal (n : Nat) : List Char :=
  Nat.toDigits 16 n

def escapeChar (c : Char) : List Char :=
  match c with
  | '\x00' => ['\\', '0']
  | '\t' => ['\\', 't']
  | '\r' => ['\\', 'r']
  | '\n' => ['\\', 'n']
  | '\\' => ['\\', '\\']
  | '"' => ['\\', '"']
  | c => if isPlainChar c then [c] else ['\\', 'u', '{'] ++ hexadecimal c.toNat ++ ['}']

def quoted (text : String) : String :=
  String.ofList ('"' :: text.toList.flatMap escapeChar ++ ['"'])

end StackCode
