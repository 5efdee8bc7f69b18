import DivGuard.Lowering.Pass
import DivGuard.Proofs.Lowering.Substitution

/-!
# The walk of a run

A run reads what a node is when its turn comes, after others were rewritten.  Rewriting a node
leaves the kinds of all others, so which nodes are lowered can be read off the graph before: they
are its divisions, and the run lowers them one after the other.
-/

namespace DivGuard

variable {l : Lowering} {g : Graph} {w : Workspace} {n : NodeId} {kind : Node.Kind}

namespace Graph

def kind? (g : Graph) (id : NodeId) : Option Node.Kind := (g.node? id).map Node.kind

theorem kind?_append (nodes : List Node) (hkind : g.kind? n = some kind) :
    (g.append nodes).kind? n = some kind := by
  obtain ⟨node, hnode, rfl⟩ := Option.map_eq_some_iff.mp hkind
  rw [kind?, node?_append_of_lt _ (lt_size_of_node? hnode), hnode, Option.map_some]

theorem kind?_guard {id : NodeId} (policy : Fallback.Policy) (key : Template.Key) (x y : NodeId)
    (hn : n ≠ id) (hkind : g.kind? n = some kind) :
    (g.guard policy key id x y).kind? n = some kind := by
  have happend := kind?_append (Template.guarded policy key x y g.slots.size) hkind
  rw [kind?, node?_guard policy key x y hn, Option.map_map]
  exact happend

end Graph

namespace Lowering

/-- The divisions of a graph, guarded or not, in increasing order. -/
def worklist (g : Graph) : List NodeId :=
  g.nodeIds.filter fun id ↦ (g.node? id).any fun node ↦ node.kind.isDivision

theorem mem_worklist :
    n ∈ worklist g ↔ ∃ node, g.node? n = some node ∧ node.kind.isDivision = true :=
  Graph.mem_filter_nodeIds

theorem lt_size_of_mem_worklist (hn : n ∈ worklist g) : n < g.slots.size := by
  obtain ⟨node, hnode, -⟩ := mem_worklist.mp hn
  exact Graph.lt_size_of_node? hnode

theorem worklist_pairwise (g : Graph) : (worklist g).Pairwise (· < ·) :=
  g.nodeIds_pairwise.filter _

theorem worklist_nodup (g : Graph) : (worklist g).Nodup :=
  (worklist_pairwise g).imp Nat.ne_of_lt

/-- Lowers nodes in order, whatever they are, counting those that are replaced. -/
def lowerAll (l : Lowering) : List NodeId → Nat → Fetched → Workspace →
    Except UnitError Nat × Workspace
  | [], replaced, _, w => (.ok replaced, w)
  | id :: ids, replaced, fetched, w =>
    match l.lowerWith id fetched w with
    | (.error e, _, w) => (.error e, w)
    | (.ok (.replaced _), fetched, w) => l.lowerAll ids (replaced + 1) fetched w
    | (.ok _, fetched, w) => l.lowerAll ids replaced fetched w

/-- Lowering a node leaves the kinds of all others. -/
theorem kind?_lowerWith {id : NodeId} (l : Lowering) (fetched : Fetched) (hn : n ≠ id)
    (hkind : w.graph.kind? n = some kind) :
    (l.lowerWith id fetched w).2.2.graph.kind? n = some kind := by
  cases hdecision : l.decision w.graph id with
  | refuse e => rwa [lowerWith_of_refuse hdecision]
  | alreadySafe => rwa [lowerWith_of_alreadySafe hdecision]
  | notRequired => rwa [lowerWith_of_notRequired hdecision]
  | rewrite key x y =>
      rcases lowerWith_of_rewrite_cases fetched hdecision with hok | ⟨e, -, k, -, hgraph⟩
      · rw [hok]
        exact Graph.kind?_guard l.policy key x y hn hkind
      · rw [hgraph]
        exact Graph.kind?_append _ hkind

/-- A walk over distinct nodes that are of the same kinds as in an earlier graph lowers those that
were divisions there. -/
theorem walk_eq_lowerAll {ids : List NodeId} (hnodup : ids.Nodup)
    (hkinds : ∀ id ∈ ids, ∃ kind, g.kind? id = some kind ∧ w.graph.kind? id = some kind)
    (count : Nat) (fetched : Fetched) :
    l.walk ids count fetched w =
      l.lowerAll (ids.filter fun id ↦ (g.node? id).any fun node ↦ node.kind.isDivision) count
        fetched w := by
  induction ids generalizing count fetched w with
  | nil => rfl
  | cons id ids ih =>
      obtain ⟨hid, hnodup⟩ := List.nodup_cons.mp hnodup
      obtain ⟨⟨kind, hbefore, hnow⟩, hkinds⟩ := List.forall_mem_cons.mp hkinds
      obtain ⟨before, hnode, rfl⟩ := Option.map_eq_some_iff.mp hbefore
      obtain ⟨node, hnode', hkind⟩ := Option.map_eq_some_iff.mp hnow
      have hread : w.graph.node id = .ok node := by simp only [Graph.node, hnode']
      have hstep : ∀ n ∈ ids, ∃ kind, g.kind? n = some kind ∧
          (l.lowerWith id fetched w).2.2.graph.kind? n = some kind := by
        intro n hn
        obtain ⟨kind, hold, hkept⟩ := hkinds n hn
        exact ⟨kind, hold, l.kind?_lowerWith fetched (ne_of_mem_of_not_mem hn hid) hkept⟩
      simp only [walk, hread, hkind]
      cases hdivision : before.kind.isDivision with
      | false =>
          rw [List.filter_cons_of_neg (by simp [hnode, hdivision])]
          exact ih hnodup hkinds count fetched
      | true =>
          rw [List.filter_cons_of_pos (by simp [hnode, hdivision]), lowerAll]
          rcases hlower : l.lowerWith id fetched w with ⟨_ | _ | _ | _, fetched', w'⟩
          all_goals rw [hlower] at hstep
          · rfl
          · exact ih hnodup hstep (count + 1) fetched'
          · exact ih hnodup hstep count fetched'
          · exact ih hnodup hstep count fetched'

/-- A run lowers the divisions of the graph in order. -/
theorem run_eq_lowerAll (l : Lowering) (w : Workspace) :
    l.run w =
      l.lowerAll (worklist w.graph) 0 [] { w with session := w.session.enter w.graph.name } := by
  refine walk_eq_lowerAll (g := w.graph) (w.graph.nodeIds_pairwise.imp Nat.ne_of_lt) ?_ 0 []
  intro id hid
  obtain ⟨node, hnode⟩ := Graph.contains_iff.mp (Graph.mem_nodeIds.mp hid)
  have hkind : w.graph.kind? id = some node.kind := by rw [Graph.kind?, hnode, Option.map_some]
  exact ⟨node.kind, hkind, hkind⟩

end Lowering

end DivGuard
