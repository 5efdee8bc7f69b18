import DivGuard.Graph.Basic
import DivGuard.Session.Basic
import DivGuard.Template.Basic

/-!
# Instantiating templates

An instantiation copies the steps of a template into a graph, one after the other, with every slot
bound to a node of that graph.  The numbers that the copies get are kept, so that later steps find
the copies of earlier ones.

All slots must be bound before the first copy is made.  A copy whose inputs are not live is refused,
and the copies before it stay.
-/

namespace DivGuard

/-- The nodes bound to slots, by name. -/
structure Bindings where
  entries : List (String × NodeId) := []
  deriving DecidableEq, Repr

namespace Bindings

def bindIn (slot : String) (node : NodeId) : List (String × NodeId) → List (String × NodeId)
  | [] => [(slot, node)]
  | (other, bound) :: rest =>
    if other = slot then (other, node) :: rest else (other, bound) :: bindIn slot node rest

/-- Binds a slot, in place of what it was bound to before. -/
def bind (b : Bindings) (slot : String) (node : NodeId) : Bindings :=
  ⟨bindIn slot node b.entries⟩

def ofList (entries : List (String × NodeId)) : Bindings :=
  entries.foldl (fun b (slot, node) ↦ b.bind slot node) {}

def get? (b : Bindings) (slot : String) : Option NodeId := b.entries.lookup slot

end Bindings

namespace Template

/-- The node that an input stands for, given the nodes bound to the slots and the copies made so
far.  An input out of range stands for `next`, the number of no node yet, so that it is refused. -/
def Input.source (bound copies : List NodeId) (next : NodeId) : Input → NodeId
  | .slot index => bound.getD index next
  | .step index => copies.getD index next

def Op.kind (policy : Fallback.Policy) : Op → Node.Kind
  | .constant value => .constant value
  | .equals => .equals
  | .fallback reason => .guard (policy reason)
  | .safeDivRem op => .safeDivRem op

/-- The node that a step becomes. -/
def Step.copy (policy : Fallback.Policy) (bound copies : List NodeId) (next : NodeId)
    (step : Step) : Node where
  kind := step.op.kind policy
  stamp := step.stamp
  inputs := step.inputs.map (Input.source bound copies next)

/-- Copies steps into a graph in order, up to the first that is refused.  The numbers of the copies
follow those of the copies made before. -/
def copySteps (policy : Fallback.Policy) (bound : List NodeId) :
    List Step → List NodeId → Graph → Except UnitError (List NodeId) × Graph
  | [], copies, g => (.ok copies, g)
  | step :: rest, copies, g =>
    match g.add (step.copy policy bound copies g.slots.size) with
    | .error e => (.error e, g)
    | .ok (id, g) => copySteps policy bound rest (copies ++ [id]) g

/-- The nodes bound to the slots, in the order of the slots, or the first slot without one. -/
def bound (t : Template) (bindings : Bindings) : Except UnitError (List NodeId) :=
  t.slots.mapM fun slot ↦
    match bindings.get? slot with
    | none => .error (.templateBinding t.key slot)
    | some node => .ok node

/-- Copies the template into a graph and returns the number of the copy of its result.  Only a
complete copy is recorded in the session. -/
def instantiate (t : Template) (policy : Fallback.Policy) (bindings : Bindings) (g : Graph)
    (session : Session) : Except UnitError NodeId × Graph × Session :=
  match t.bound bindings with
  | .error e => (.error e, g, session)
  | .ok bound =>
    match copySteps policy bound t.steps [] g with
    | (.error e, g) => (.error e, g, session)
    | (.ok copies, g) =>
      (.ok (copies.getD t.result g.slots.size), g, session.recordInstantiated copies.length)

end Template

end DivGuard
