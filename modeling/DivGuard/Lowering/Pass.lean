import DivGuard.Lowering.Rewrite

/-!
# The lowering pass

A run walks over the nodes that are live when it starts, in increasing order.  It reads what a node
is when its turn comes, passes over all that are no divisions and lowers the others.  It stops at
the first error and keeps what it did until then.
-/

namespace DivGuard.Lowering

/-- Lowers the divisions, guarded or not, among nodes in order.  Those that are replaced are
counted. -/
def walk (l : Lowering) : List NodeId → Nat → Fetched → Workspace →
    Except UnitError Nat × Workspace
  | [], replaced, _, w => (.ok replaced, w)
  | id :: ids, replaced, fetched, w =>
    match w.graph.node id with
    | .error e => (.error e, w)
    | .ok node =>
      if !node.kind.isDivision then l.walk ids replaced fetched w
      else
        match l.lowerWith id fetched w with
        | (.error e, _, w) => (.error e, w)
        | (.ok (.replaced _), fetched, w) => l.walk ids (replaced + 1) fetched w
        | (.ok _, fetched, w) => l.walk ids replaced fetched w

/-- Lowers every unchecked division of the graph and returns how many were replaced. -/
def run (l : Lowering) (w : Workspace) : Except UnitError Nat × Workspace :=
  l.walk w.graph.nodeIds 0 [] { w with session := w.session.enter w.graph.name }

end DivGuard.Lowering
