import DivGuard.Template.Basic

/-!
# Division templates

The safe form of a division of `x` by `y`: compare `y` with zero, guard on that, divide behind the
guard.  The comparison is the same for signed and unsigned operations; only the division itself
tells them apart.
-/

namespace DivGuard.Template

def dividendSlot : String := "x"

def divisorSlot : String := "y"

def division (key : Key) : Template where
  key := key
  slots := [dividendSlot, divisorSlot]
  steps := [
    { op := .constant (.ofInt key.width 0), stamp := .oneInt key.width 0, inputs := [] },
    { op := .equals, stamp := .int (.between 32 0 1), inputs := [.slot 1, .step 0] },
    { op := .fallback .divisionByZero, stamp := .void, inputs := [.step 1] },
    { op := .safeDivRem key.op, stamp := .anyInt key.width, inputs := [.slot 0, .slot 1, .step 2] }]
  result := 3

end DivGuard.Template
