/-!
# Quoted texts

A text between quotation marks, with the marks in it and the characters that do not show escaped.
-/

namespace DivGuard.Text

/-- Control characters, those after ASCII included. -/
def isControl (c : Char) : Bool := c.toNat < 0x20 || 0x7F ≤ c.toNat && c.toNat < 0xA0

/-- How a character is written between quotation marks. -/
def escape (c : Char) : List Char :=
  if c == '\"' then ['\\', '\"']
  else if c == '\\' then ['\\', '\\']
  else if c == '\n' then ['\\', 'n']
  else if c == '\r' then ['\\', 'r']
  else if c == '\t' then ['\\', 't']
  else if c == '\x00' then ['\\', '0']
  else if isControl c then ['\\', 'u', '\x7b'] ++ Nat.toDigits 16 c.toNat ++ ['\x7d']
  else [c]

def quote (text : String) : String := String.ofList ('\"' :: text.toList.flatMap escape ++ ['\"'])

end DivGuard.Text
