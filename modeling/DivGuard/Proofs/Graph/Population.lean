import DivGuard.Proofs.Graph.Lookup
import Mathlib.Data.List.Basic

/-!
# Counting nodes by kind

An added node counts for its kind.  A redirection takes away the node that is replaced and leaves
the kinds of all others alone.
-/

namespace DivGuard.Graph

variable {g : Graph} {old : NodeId} {node : Node} {p : Node.Kind → Bool}

/-- How many live nodes have a kind with the property. -/
def population (g : Graph) (p : Node.Kind → Bool) : Nat :=
  g.nodeIds.countP fun id ↦ (g.node? id).any fun node ↦ p node.kind

theorem liveCount_eq_population (g : Graph) : g.liveCount = g.population fun _ ↦ true := by
  symm
  apply List.countP_eq_length.mpr
  intro id hid
  obtain ⟨node, hnode⟩ := contains_iff.mp (mem_nodeIds.mp hid)
  simp [hnode]

theorem population_eq_countP_range (g : Graph) (p : Node.Kind → Bool) :
    g.population p =
      (List.range g.slots.size).countP fun id ↦ (g.node? id).any fun node ↦ p node.kind := by
  rw [population, nodeIds, List.countP_filter]
  apply List.countP_congr
  intro id _
  cases h : g.node? id <;> simp [contains, h]

theorem population_push (g : Graph) (node : Node) (p : Node.Kind → Bool) :
    (g.push node).population p = g.population p + if p node.kind then 1 else 0 := by
  have hold : ∀ id ∈ List.range g.slots.size, (g.push node).node? id = g.node? id := by
    intro id hid
    rw [node?_push, if_neg (Nat.ne_of_lt (List.mem_range.mp hid))]
  have hnew : (g.push node).node? g.slots.size = some node := by rw [node?_push, if_pos rfl]
  rw [population_eq_countP_range, population_eq_countP_range, size_push, List.range_succ,
    List.countP_append, List.countP_singleton, hnew]
  congr 1
  apply List.countP_congr
  intro id hid
  rw [hold id hid]

theorem population_append (g : Graph) (nodes : List Node) (p : Node.Kind → Bool) :
    (g.append nodes).population p = g.population p + nodes.countP fun node ↦ p node.kind := by
  induction nodes generalizing g with
  | nil => rfl
  | cons node nodes ih =>
      rw [append_cons, ih, population_push, List.countP_cons]
      omega

theorem population_redirect (hnode : g.node? old = some node) (new : NodeId)
    (p : Node.Kind → Bool) :
    (g.redirect old new).population p + (if p node.kind then 1 else 0) = g.population p := by
  have hsplit : (List.range g.slots.size).Perm (old :: (List.range g.slots.size).erase old) :=
    List.perm_cons_erase (List.mem_range.mpr (lt_size_of_node? hnode))
  have hdead : (g.redirect old new).node? old = none := by rw [node?_redirect, if_pos rfl]
  rw [population_eq_countP_range, population_eq_countP_range, size_redirect, hsplit.countP_eq,
    hsplit.countP_eq, List.countP_cons, List.countP_cons, hdead, hnode]
  have hrest : ∀ id ∈ (List.range g.slots.size).erase old,
      ((g.redirect old new).node? id).any (fun node ↦ p node.kind) =
        (g.node? id).any fun node ↦ p node.kind := by
    intro id hid
    have hne : id ≠ old := (List.nodup_range.mem_erase_iff.mp hid).1
    rw [node?_redirect, if_neg hne]
    cases g.node? id <;> rfl
  rw [List.countP_congr fun id hid ↦ by rw [hrest id hid]]
  simp

theorem liveCount_push (g : Graph) (node : Node) : (g.push node).liveCount = g.liveCount + 1 := by
  rw [liveCount_eq_population, liveCount_eq_population]
  exact population_push g node fun _ ↦ true

theorem liveCount_redirect (hold : g.contains old = true) (new : NodeId) :
    (g.redirect old new).liveCount + 1 = g.liveCount := by
  obtain ⟨node, hnode⟩ := contains_iff.mp hold
  rw [liveCount_eq_population, liveCount_eq_population]
  exact population_redirect hnode new fun _ ↦ true

end DivGuard.Graph
