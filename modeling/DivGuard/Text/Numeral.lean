/-!
# Numerals

Addresses are written in hexadecimal; integers are read in decimal, with an optional sign and any
number of leading zeros.
-/

namespace DivGuard.Text

/-- Hexadecimal with the mark `0x` and no leading zeros. -/
def hexadecimal (n : UInt64) : String :=
  "0x" ++ String.ofList (Nat.toDigits 16 n.toNat)

def digitValue? (c : Char) : Option Nat :=
  if c.isDigit then some (c.toNat - '0'.toNat) else none

/-- The number that ASCII digits denote, most significant first.  No digits denote no number. -/
def natOfDigits? (cs : List Char) : Option Nat :=
  if cs.isEmpty then none
  else (cs.mapM digitValue?).map fun ds ↦ ds.foldl (fun n d ↦ 10 * n + d) 0

/-- A decimal integer: a sign or none, then at least one digit and nothing else. -/
def intOfDecimal? : List Char → Option Int
  | '-' :: digits => (natOfDigits? digits).map fun n ↦ -(n : Int)
  | '+' :: digits => (natOfDigits? digits).map Int.ofNat
  | digits => (natOfDigits? digits).map Int.ofNat

/-- A decimal integer that fits a signed 64-bit word. -/
def wordOfDecimal? (text : String) : Option Int64 :=
  match intOfDecimal? text.toList with
  | none => none
  | some n =>
    if Int64.minValue.toInt ≤ n ∧ n ≤ Int64.maxValue.toInt then some (.ofInt n) else none

end DivGuard.Text
