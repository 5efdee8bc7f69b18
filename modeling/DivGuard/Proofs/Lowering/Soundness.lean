import DivGuard.Proofs.Lowering.Expansion

/-!
# Lowered graphs are sound

Lowering keeps graphs closed and acyclic.  The new nodes need not be younger than their users, so a
ranking of the old graph is stretched: it leaves room below every division for the three nodes that
its guarded form has more.
-/

namespace DivGuard

variable {l : Lowering} {g h : Graph} {ds : List NodeId} {d n x y : NodeId} {key : Template.Key}

theorem Lowering.uses_of_rewrite (hdecision : l.decision g d = .rewrite key x y) :
    g.Uses d x ∧ g.Uses d y := by
  obtain ⟨-, -, stamp, -, hnode⟩ := Lowering.decision_eq_rewrite_iff.mp hdecision
  exact ⟨⟨_, hnode, by simp⟩, ⟨_, hnode, by simp⟩⟩

theorem Lowering.lowerWith_of_closed {w : Workspace} (hclosed : w.graph.Closed)
    (hdecision : l.decision w.graph d = .rewrite key x y) (fetched : Fetched) :
    l.lowerWith d fetched w =
      (.ok (.replaced (w.graph.slots.size + 3)), (fetch key fetched w.cache).2.1,
        l.rewritten key d x y fetched w) := by
  obtain ⟨hx, hy⟩ := uses_of_rewrite hdecision
  exact lowerWith_of_rewrite hdecision (hclosed d x hx) (hclosed d y hy)

/-- The ranks of a lowered graph: four for each rank before, which the new nodes fill. -/
def Graph.stretch (g : Graph) (ds : List NodeId) (rank : NodeId → Nat) (n : NodeId) : Nat :=
  if n < g.slots.size then 4 * rank n
  else 4 * rank (ds.getD ((n - g.slots.size) / 4) 0) - (3 - (n - g.slots.size) % 4)

theorem Graph.stretch_new (g : Graph) (rank : NodeId → Nat) {i j : Nat} (hi : ds[i]? = some d)
    (hj : j < 4) : g.stretch ds rank (g.slots.size + 4 * i + j) = 4 * rank d - (3 - j) := by
  have hdiv : (g.slots.size + 4 * i + j - g.slots.size) / 4 = i := by lia
  have hmod : (g.slots.size + 4 * i + j - g.slots.size) % 4 = j := by lia
  rw [stretch, if_neg (by lia), hdiv, hmod, List.getD_eq_getElem?_getD, hi]
  rfl

namespace Expansion

theorem uses_cases (hx : Expansion l g ds h) {user input : NodeId} (huse : h.Uses user input) :
    (user < g.slots.size ∧ user ∉ ds ∧ ∃ old, g.Uses user old ∧ input = g.image ds old) ∨
    ∃ (i : Nat) (d : NodeId) (j : Nat), ds[i]? = some d ∧ j < 4 ∧
      user = g.slots.size + 4 * i + j ∧
      ((∃ old, g.Uses d old ∧ input = g.image ds old) ∨
        ∃ k < j, input = g.slots.size + 4 * i + k) := by
  obtain ⟨node, hnode, hinput⟩ := huse
  rcases hx.node_cases hnode with
    ⟨hmem, before, hbefore, rfl⟩ | ⟨i, d, key, x, y, j, hi, hdecision, hj, rfl, hadded⟩
  · obtain ⟨old, hold, rfl⟩ := List.mem_map.mp hinput
    exact .inl ⟨Graph.lt_size_of_node? hbefore, hmem, old, ⟨before, hbefore, hold⟩, rfl⟩
  · obtain ⟨hux, huy⟩ := Lowering.uses_of_rewrite hdecision
    refine .inr ⟨i, d, j, hi, hj, rfl, ?_⟩
    rcases Template.inputs_guarded hadded hinput with rfl | rfl | ⟨hle, hlt⟩
    · exact .inl ⟨x, hux, rfl⟩
    · exact .inl ⟨y, huy, rfl⟩
    · exact .inr ⟨input - (g.slots.size + 4 * i), by lia, by lia⟩

theorem contains_new (hx : Expansion l g ds h) {i j : Nat} (hi : ds[i]? = some d) (hj : j < 4) :
    h.contains (g.slots.size + 4 * i + j) = true := by
  obtain ⟨key, x, y, hdecision⟩ := hx.decided d (List.mem_of_getElem? hi)
  rw [Graph.contains, hx.added i d key x y hi hdecision j hj]
  simpa using hj

theorem closed (hx : Expansion l g ds h) (hclosed : g.Closed) : h.Closed := by
  intro user input huse
  rcases hx.uses_cases huse with
    ⟨-, -, old, hold, rfl⟩ | ⟨i, d, j, hi, hj, -, ⟨old, hold, rfl⟩ | ⟨k, hk, rfl⟩⟩
  · exact hx.contains_image (hclosed _ _ hold)
  · exact hx.contains_image (hclosed _ _ hold)
  · exact hx.contains_new hi (hk.trans hj)

theorem stretch_image (hx : Expansion l g ds h) (rank : NodeId → Nat) (hn : g.contains n = true) :
    g.stretch ds rank (g.image ds n) = 4 * rank n := by
  by_cases hmem : n ∈ ds
  · obtain ⟨i, hi⟩ := List.getElem?_of_mem hmem
    rw [Graph.image_of_getElem? hx.nodup hi, g.stretch_new rank hi (by decide)]
    rfl
  · rw [Graph.image_of_not_mem hmem, Graph.stretch, if_pos (Graph.lt_size_of_contains hn)]

theorem ranking (hx : Expansion l g ds h) (hclosed : g.Closed) {rank : NodeId → Nat}
    (hrank : g.Ranking rank) : h.Ranking (g.stretch ds rank) := by
  intro user input huse
  rcases hx.uses_cases huse with
    ⟨hlt, -, old, hold, rfl⟩ | ⟨i, d, j, hi, hj, rfl, ⟨old, hold, rfl⟩ | ⟨k, hk, rfl⟩⟩
  · have hless : rank old < rank user := hrank _ _ hold
    rw [hx.stretch_image rank (hclosed _ _ hold), Graph.stretch, if_pos hlt]
    omega
  · have hless : rank old < rank d := hrank _ _ hold
    rw [hx.stretch_image rank (hclosed _ _ hold), g.stretch_new rank hi hj]
    omega
  · -- The division itself has operands, so three ranks below its own are there to be filled.
    obtain ⟨key, x, y, hdecision⟩ := hx.decided d (List.mem_of_getElem? hi)
    have hless : rank x < rank d := hrank _ _ (Lowering.uses_of_rewrite hdecision).1
    rw [g.stretch_new rank hi hj, g.stretch_new rank hi (hk.trans hj)]
    omega

theorem acyclic (hx : Expansion l g ds h) (hclosed : g.Closed) (hacyclic : g.Acyclic) :
    h.Acyclic := by
  obtain ⟨rank, hrank, -⟩ := hacyclic.exists_ranking
  exact (hx.ranking hclosed hrank).acyclic

end Expansion

end DivGuard
