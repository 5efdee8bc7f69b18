import DivGuard.Graph.Node
import DivGuard.Template.Key

/-!
# Templates

A template is a fragment of a graph that belongs to no graph yet.  It is a list of steps, each to
become one node, that take their inputs from named slots or from earlier steps.  A guard only says
why it falls back; the request itself comes from the runtime when the template is instantiated, so
one template serves every runtime.
-/

namespace DivGuard

inductive Template.Op where
  | constant (value : Constant)
  | equals
  | fallback (reason : Fallback.Reason)
  | safeDivRem (op : DivOp)
  deriving DecidableEq, Repr

inductive Template.Input where
  /-- What is bound to a slot, by its position. -/
  | slot (index : Nat)
  /-- An earlier step, by its position. -/
  | step (index : Nat)
  deriving DecidableEq, Repr

structure Template.Step where
  op : Template.Op
  stamp : Stamp
  inputs : List Template.Input
  deriving DecidableEq, Repr

structure Template where
  key : Template.Key
  slots : List String
  steps : List Template.Step
  /-- Position of the step that gives the value of the fragment. -/
  result : Nat
  deriving DecidableEq, Repr

namespace Template

/-- Whether an input of the step at a position names a slot or an earlier step. -/
def InputInRange (t : Template) (position : Nat) : Input → Prop
  | .slot index => index < t.slots.length
  | .step index => index < position

/-- All inputs name slots or earlier steps, and the result exists. -/
structure WellFormed (t : Template) : Prop where
  inputs_in_range : ∀ position step, t.steps[position]? = some step →
    ∀ input ∈ step.inputs, t.InputInRange position input
  result_lt : t.result < t.steps.length

def resultStep? (t : Template) : Option Step := t.steps[t.result]?

end Template

end DivGuard
