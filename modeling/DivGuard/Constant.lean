import DivGuard.Integer.Width
import DivGuard.Text.Numeral

/-!
# Constants

Values known at compile time: integers of a width, and references.  A reference is held in full or
in narrow form; which one is part of the constant, so packing a reference makes another constant.
-/

namespace DivGuard

/-- How a reference is held: as a machine word, or packed into 32 bits. -/
inductive RefForm where
  | full
  | narrow
  deriving DecidableEq, Repr

inductive Constant where
  | int (bits : Nat) (value : Int64)
  | null (form : RefForm)
  /-- An object, named by its full address in both forms. -/
  | object (address : UInt64) (form : RefForm)
  deriving DecidableEq, Repr

namespace Constant

/-- The integer whose word is extended from its width. -/
def ofInt (bits : Nat) (value : Int64) : Constant :=
  .int bits (signExtend bits value)

/-- The full reference to an address.  Address zero is null. -/
def ofAddress (address : UInt64) : Constant :=
  if address = 0 then .null .full else .object address .full

def int? : Constant → Option Int64
  | .int _ value => some value
  | .null _ | .object _ _ => none

/-- The form of a reference; integers have none. -/
def form? : Constant → Option RefForm
  | .int _ _ => none
  | .null form => some form
  | .object _ form => some form

def isNull : Constant → Bool
  | .null _ => true
  | .int _ _ | .object _ _ => false

def isReference (c : Constant) : Bool := c.form?.isSome

def isNarrow (c : Constant) : Bool := c.form? == some .narrow

/-- The same reference in another form.  Integers stay as they are. -/
def inForm (form : RefForm) : Constant → Constant
  | .int bits value => .int bits value
  | .null _ => .null form
  | .object address _ => .object address form

def text : Constant → String
  | .int bits value => s!"i{bits} {value}"
  | .null .full => "null"
  | .null .narrow => "narrow null"
  | .object address .full => s!"object@{Text.hexadecimal address}"
  | .object address .narrow => s!"narrow object@{Text.hexadecimal address}"

end Constant

end DivGuard
