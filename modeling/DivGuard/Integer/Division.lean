import DivGuard.Integer.Width

/-!
# Division and remainder of words

Four operations, one table of them on bit vectors.  A zero divisor has no result; everything else
has one, and the signed quotient of the least integer by `-1` wraps around to itself.
-/

namespace DivGuard

/-- Integer division or remainder, signed (rounding toward zero) or unsigned. -/
inductive DivOp where
  | sdiv
  | srem
  | udiv
  | urem
  deriving DecidableEq, Repr

namespace DivOp

def all : List DivOp := [.sdiv, .srem, .udiv, .urem]

def name : DivOp → String
  | .sdiv => "sdiv"
  | .srem => "srem"
  | .udiv => "udiv"
  | .urem => "urem"

def ofName? (text : String) : Option DivOp :=
  all.find? fun op ↦ op.name == text

def isSigned : DivOp → Bool
  | .sdiv | .srem => true
  | .udiv | .urem => false

/-- The operation on equally wide bit vectors.  What it makes of a zero divisor is never used:
`divide?` asks first. -/
def onBits {w : Nat} : DivOp → BitVec w → BitVec w → BitVec w
  | .sdiv, x, y => x.sdiv y
  | .srem, x, y => x.srem y
  | .udiv, x, y => x / y
  | .urem, x, y => x % y

def divide? {w : Nat} (op : DivOp) (x y : BitVec w) : Option (BitVec w) :=
  if y = 0#w then none else some (op.onBits x y)

/-- The value of `x op y` at a width.

Width 32 divides the low halves and extends the result by its sign.  Every other width divides whole
words: signed operations take them as they are, unsigned ones extend both operands by zeros first
and leave the result unextended. -/
def fold (op : DivOp) (bits : Nat) (x y : Int64) : Option Int64 :=
  if bits = 32 then
    (op.divide? (x.toBitVec.setWidth 32) (y.toBitVec.setWidth 32)).map fun r ↦
      .ofBitVec (r.signExtend 64)
  else if op.isSigned then
    (op.divide? x.toBitVec y.toBitVec).map .ofBitVec
  else
    (op.divide? (zeroExtend bits x).toBitVec (zeroExtend bits y).toBitVec).map .ofBitVec

end DivOp

end DivGuard
