import DivGuard.Graph.Redirect
import DivGuard.Lowering.Decision
import DivGuard.Template.Cache
import DivGuard.Template.Instantiate

/-!
# Lowering a node

A rewrite takes the template for the division, copies it into the graph and lets the copy of its
result take the place of the division.  Every step returns the workspace as it is then, also next to
an error: what was done before the error stays done.
-/

namespace DivGuard

structure Workspace where
  graph : Graph := {}
  session : Session := {}
  cache : Template.Cache := {}
  deriving DecidableEq, Repr

inductive Lowered where
  | replaced (node : NodeId)
  | alreadySafe
  | notRequired
  deriving DecidableEq, Repr

namespace Lowering

/-- Entries fetched in the course of one run, so that each key is asked of the cache only once. -/
abbrev Fetched := List Template.Cache.Entry

/-- The template for a key: from those fetched before, or else from the cache. -/
def fetch (key : Template.Key) (fetched : Fetched) (cache : Template.Cache) :
    Template × Fetched × Template.Cache :=
  match fetched.find? fun entry ↦ entry.key == key with
  | some entry => (entry.template, fetched, cache)
  | none =>
    let (entry, cache) := cache.get key
    (entry.template, entry :: fetched, cache)

/-- Puts an instance of a division template in the place of a division. -/
def substitute (l : Lowering) (template : Template) (id x y : NodeId) (w : Workspace) :
    Except UnitError NodeId × Workspace :=
  let bindings := ({} : Bindings).bind Template.dividendSlot x |>.bind Template.divisorSlot y
  match template.instantiate l.policy bindings w.graph w.session with
  | (.error e, graph, session) => (.error e, { w with graph, session })
  | (.ok new, graph, session) =>
    match graph.replace id new with
    | .error e => (.error e, { w with graph, session })
    | .ok graph => (.ok new, { w with graph, session })

/-- Lowers one node with the templates fetched so far. -/
def lowerWith (l : Lowering) (id : NodeId) (fetched : Fetched) (w : Workspace) :
    Except UnitError Lowered × Fetched × Workspace :=
  match l.decision w.graph id with
  | .refuse e => (.error e, fetched, w)
  | .alreadySafe => (.ok .alreadySafe, fetched, { w with session := w.session.recordSkipped })
  | .notRequired => (.ok .notRequired, fetched, { w with session := w.session.recordSkipped })
  | .rewrite key x y =>
    let (template, fetched, cache) := fetch key fetched w.cache
    match l.substitute template id x y { w with cache } with
    | (.error e, w) => (.error e, fetched, w)
    | (.ok new, w) =>
      (.ok (.replaced new), fetched, { w with session := w.session.recordLowered key.op.name })

def lower (l : Lowering) (id : NodeId) (w : Workspace) : Except UnitError Lowered × Workspace :=
  let (result, _, w) := l.lowerWith id [] w
  (result, w)

end Lowering

end DivGuard
