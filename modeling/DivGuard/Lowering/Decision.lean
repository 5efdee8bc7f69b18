import DivGuard.Graph.Basic
import DivGuard.Template.Key

/-!
# What to do with a node

Lowering rewrites an unchecked division only where the target needs it: where its divide instruction
does not fault on zero by itself, or where lowering is forced.  Whatever the node itself or the
target gives cause to refuse is refused here, before anything is changed.
-/

namespace DivGuard

structure Lowering where
  target : Target
  /-- Lower even where the divide instruction faults on zero. -/
  force : Bool := false
  policy : Fallback.Policy := .keepCode

namespace Lowering

def required (l : Lowering) : Bool := l.force || !l.target.arch.faultsOnZero

inductive Decision where
  | refuse (error : UnitError)
  /-- A division behind a guard needs nothing more. -/
  | alreadySafe
  /-- The target's fault takes the place of the guard. -/
  | notRequired
  /-- To be replaced by the template for the key, with `x` and `y` as operands. -/
  | rewrite (key : Template.Key) (x y : NodeId)
  deriving DecidableEq, Repr

/-- The decision on an unchecked division.  A stamp that is no integer counts as width 0. -/
def decideDivision (l : Lowering) (op : DivOp) (stamp : Stamp) (x y : NodeId) : Decision :=
  if !l.required then .notRequired
  else
    let width := stamp.bits?.getD 0
    if l.target.supportsWidth width then .rewrite ⟨op, width⟩ x y
    else .refuse (.unsupportedWidth op width)

def decision (l : Lowering) (g : Graph) (id : NodeId) : Decision :=
  match g.node? id with
  | none => .refuse (.invalidNode id)
  | some node =>
    match node.kind, node.inputs with
    | .safeDivRem _, _ => .alreadySafe
    | .divRem op, [x, y] => l.decideDivision op node.stamp x y
    | .divRem _, _ => .refuse (.invalidNode id)
    | kind, _ => .refuse (.unsupportedNode id kind)

end Lowering

end DivGuard
