import DivGuard.Interpreter.Demand

/-!
# Evaluating a node

Evaluation follows inputs from the node that is asked for.  Without cycles no chain of live nodes is
longer than the graph has slots, so a depth of one more than that always suffices; a node on a cycle
is reported as invalid where the depth runs out.
-/

namespace DivGuard.Run

/-- The outcome of a node, following inputs down to a depth. -/
def evaluateTo (run : Run) (g : Graph) : Nat → NodeId → Except UnitError Outcome
  | 0, id => .error (.invalidNode id)
  | depth + 1, id =>
    match g.node? id with
    | none => .error (.invalidNode id)
    | some node => (run.demand id node).answer (run.evaluateTo g depth)

def evaluate (run : Run) (g : Graph) (id : NodeId) : Except UnitError Outcome :=
  run.evaluateTo g (g.slots.size + 1) id

end DivGuard.Run
