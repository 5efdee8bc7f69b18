import DivGuard.Fallback
import DivGuard.Integer.Division
import DivGuard.Machine.Target

/-!
# Outcomes and the divide instruction

Running code ends in a value, in a fallback that a guard asked for, or in a hardware fault.
-/

namespace DivGuard

inductive Outcome where
  | value (value : Int64)
  | fallback (reason : Fallback.Reason)
  /-- The hardware raised an arithmetic fault. -/
  | trap
  deriving DecidableEq, Repr

def Outcome.text : Outcome → String
  | .value v => s!"Value({v})"
  | .fallback reason => s!"Fallback({reason.text})"
  | .trap => "Trap"

/-- What the divide instruction of a target does with two words at a width.

A zero divisor faults or gives zero.  A machine that faults on zero faults on the one signed
quotient that leaves the width too; others wrap it. -/
def Target.divide (target : Target) (op : DivOp) (bits : Nat) (x y : Int64) : Outcome :=
  if signExtend bits y = 0 then
    if target.arch.faultsOnZero then .trap else .value 0
  else if target.arch.faultsOnZero && op.isSigned && signExtend bits x == leastInt bits
      && signExtend bits y == -1 then
    .trap
  else
    match op.fold bits x y with
    | none => .trap
    | some v => .value v

end DivGuard
