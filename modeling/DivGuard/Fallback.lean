/-!
# Fallback requests

Compiled code that meets a case it cannot handle asks the runtime to take over.  Code generation
decides where the request goes and why; what the runtime then does with the code is an action, and
the runtime's own policy chooses it.
-/

namespace DivGuard

inductive Fallback.Reason where
  | divisionByZero
  deriving DecidableEq, Repr

inductive Fallback.Action where
  /-- Keep the compiled code: the case is rare and no assumption was wrong. -/
  | keepCode
  /-- Throw the compiled code away and compile again. -/
  | recompile
  deriving DecidableEq, Repr

structure Fallback where
  reason : Fallback.Reason
  action : Fallback.Action
  deriving DecidableEq, Repr

namespace Fallback

/-- How a runtime answers a reason with a request. -/
abbrev Policy := Reason → Fallback

def Policy.always (action : Action) : Policy := fun reason ↦ { reason, action }

/-- The usual policy.  Division by zero is an error of the program and no wrong guess of the
compiler, so its code is kept. -/
def Policy.keepCode : Policy := .always .keepCode

def Reason.text : Reason → String
  | .divisionByZero => "DivisionByZero"

def Action.text : Action → String
  | .keepCode => "None"
  | .recompile => "InvalidateRecompile"

def text (f : Fallback) : String := s!"{f.reason.text}, {f.action.text}"

end Fallback

end DivGuard
