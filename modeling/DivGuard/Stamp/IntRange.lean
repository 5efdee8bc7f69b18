import DivGuard.Constant

/-!
# Integer ranges

The integers of a width between two bounds, both included.  Every width can be described, also ones
that no machine computes with.
-/

namespace DivGuard

structure IntRange where
  bits : Nat
  lower : Int64
  upper : Int64
  deriving DecidableEq, Repr

namespace IntRange

/-- The range between two bounds, each extended from the width first. -/
def between (bits : Nat) (lower upper : Int64) : IntRange :=
  ⟨bits, signExtend bits lower, signExtend bits upper⟩

def full (bits : Nat) : IntRange := between bits (leastInt bits) (greatestInt bits)

def single (bits : Nat) (value : Int64) : IntRange := between bits value value

/-- Whether the integer that a word stands for at this width lies between the bounds. -/
def contains (r : IntRange) (value : Int64) : Bool :=
  decide (r.lower ≤ signExtend r.bits value) && decide (signExtend r.bits value ≤ r.upper)

def mayBeZero (r : IntRange) : Bool := r.contains 0

def constant? (r : IntRange) : Option Constant :=
  if r.lower = r.upper then some (.ofInt r.bits r.lower) else none

def hull (r s : IntRange) : IntRange :=
  ⟨r.bits, min r.lower s.lower, max r.upper s.upper⟩

def text (r : IntRange) : String :=
  if r.lower = r.upper then s!"i{r.bits} [{r.lower}]"
  else if r.lower = leastInt r.bits ∧ r.upper = greatestInt r.bits then s!"i{r.bits}"
  else s!"i{r.bits} [{r.lower} - {r.upper}]"

end IntRange

end DivGuard
