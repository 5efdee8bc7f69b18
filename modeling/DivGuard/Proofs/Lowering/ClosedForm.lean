import DivGuard.Proofs.Integer.Division
import DivGuard.Proofs.Lowering.Runs

/-!
# The graph after a complete run

A run that succeeds where lowering is required has rewritten every unchecked division.  What it
leaves is then a function of the graph alone: the fragments stand behind the old nodes in the order
of the divisions that they replace.
-/

namespace DivGuard

variable {l : Lowering} {g h : Graph} {n : NodeId} {node : Node} {w w' : Workspace}

def Node.Kind.isUnchecked : Node.Kind → Bool
  | .divRem _ => true
  | .parameter _ | .constant _ | .equals | .guard _ | .safeDivRem _ | .result => false

namespace Graph

/-- The live unchecked divisions, in increasing order. -/
def divisions (g : Graph) : List NodeId :=
  g.nodeIds.filter fun id ↦ (g.node? id).any fun node ↦ node.kind.isUnchecked

theorem mem_divisions :
    n ∈ g.divisions ↔ ∃ node, g.node? n = some node ∧ node.kind.isUnchecked = true :=
  mem_filter_nodeIds

theorem divisions_pairwise (g : Graph) : g.divisions.Pairwise (· < ·) :=
  g.nodeIds_pairwise.filter _

/-- What lowering makes of a graph: `h` has four nodes for each unchecked division of `g`. -/
structure LoweredTo (policy : Fallback.Policy) (g h : Graph) : Prop where
  sorted : g.divisions.Pairwise (· < ·)
  size_eq : h.slots.size = g.slots.size + 4 * g.divisions.length
  binary : ∀ d ∈ g.divisions, ∃ op stamp x y, g.node? d = some ⟨.divRem op, stamp, [x, y]⟩
  deleted : ∀ d ∈ g.divisions, h.node? d = none
  dead : ∀ n < g.slots.size, g.node? n = none → h.node? n = none
  kept : ∀ n kind stamp inputs, n ∉ g.divisions → g.node? n = some ⟨kind, stamp, inputs⟩ →
    h.node? n = some ⟨kind, stamp, inputs.map (g.image g.divisions)⟩
  added : ∀ (i : Nat) d op stamp x y, g.divisions[i]? = some d →
    g.node? d = some ⟨.divRem op, stamp, [x, y]⟩ →
    let base := g.slots.size + 4 * i
    let width := stamp.bits?.getD 0
    h.node? base = some ⟨.constant (.int width 0), .oneInt width 0, []⟩ ∧
      h.node? (base + 1) =
        some ⟨.equals, .int (.between 32 0 1), [g.image g.divisions y, base]⟩ ∧
      h.node? (base + 2) = some ⟨.guard (policy .divisionByZero), .void, [base + 1]⟩ ∧
      h.node? (base + 3) = some ⟨.safeDivRem op, .anyInt width,
        [g.image g.divisions x, g.image g.divisions y, base + 2]⟩

end Graph

namespace Lowering

theorem required_of_rewrites (h : l.rewrites g n = true) : l.required = true := by
  obtain ⟨key, x, y, hdecision⟩ := rewrites_iff.mp h
  exact (decision_eq_rewrite_iff.mp hdecision).1

theorem rewrites_eq_isUnchecked (hrequired : l.required = true) (hnode : g.node? n = some node)
    (h : l.Skips g n ∨ l.rewrites g n = true) : l.rewrites g n = node.kind.isUnchecked := by
  rcases h with hskips | hrewrites
  · rw [hskips.rewrites_eq_false]
    rcases hskips with hsafe | hfree
    · obtain ⟨op, stamp, inputs, hsafe⟩ := decision_eq_alreadySafe_iff.mp hsafe
      obtain rfl := Option.some.inj (hnode.symm.trans hsafe)
      rfl
    · exact absurd hfree (decision_ne_notRequired hrequired)
  · obtain ⟨key, x, y, hdecision⟩ := rewrites_iff.mp hrewrites
    obtain ⟨-, -, stamp, -, hdivision⟩ := decision_eq_rewrite_iff.mp hdecision
    obtain rfl := Option.some.inj (hnode.symm.trans hdivision)
    exact hrewrites

theorem filter_rewrites_worklist (hrequired : l.required = true)
    (h : ∀ id ∈ worklist g, l.Skips g id ∨ l.rewrites g id = true) :
    (worklist g).filter (l.rewrites g) = g.divisions := by
  have hcongr : ∀ id ∈ worklist g, l.rewrites g id =
      (g.node? id).any fun node ↦ node.kind.isUnchecked := by
    intro id hid
    obtain ⟨node, hnode, -⟩ := mem_worklist.mp hid
    rw [rewrites_eq_isUnchecked hrequired hnode (h id hid), hnode]
    rfl
  rw [List.filter_congr hcongr, worklist, List.filter_filter, Graph.divisions]
  apply List.filter_congr
  intro id _
  cases g.node? id with
  | none => rfl
  | some node =>
      obtain ⟨kind, stamp, inputs⟩ := node
      cases kind <;> rfl

theorem Progress.of_ok {ids : List NodeId} {ended : Except UnitError Nat × Workspace} {k : Nat}
    (h : l.Progress g [] ids 0 ended) (hok : ended.1 = .ok k) :
    (∀ id ∈ ids, l.Skips g id ∨ l.rewrites g id = true) ∧
      Expansion l g (ids.filter (l.rewrites g)) ended.2.graph ∧
      k = (ids.filter (l.rewrites g)).length := by
  obtain ⟨before, rest, rfl, hbefore, hfinal, hend⟩ := h
  cases rest with
  | cons bad rest =>
      obtain ⟨e, -, herror⟩ := hend
      cases hok.symm.trans herror
  | nil =>
      rw [List.append_nil]
      refine ⟨hbefore, by simpa using hfinal, ?_⟩
      rw [Nat.zero_add] at hend
      cases hok.symm.trans hend
      rfl

end Lowering

theorem Expansion.loweredTo (hx : Expansion l g g.divisions h) : g.LoweredTo l.policy h where
  sorted := g.divisions_pairwise
  size_eq := hx.size_eq
  binary d hd := by
    obtain ⟨key, x, y, hdecision⟩ := hx.decided d hd
    obtain ⟨-, -, stamp, -, hnode⟩ := Lowering.decision_eq_rewrite_iff.mp hdecision
    exact ⟨key.op, stamp, x, y, hnode⟩
  deleted _ hd := hx.node?_of_mem hd
  dead n hlt hdead := by
    have hn : n ∉ g.divisions := by
      intro hn
      obtain ⟨node, hnode, -⟩ := Graph.mem_divisions.mp hn
      simp [hdead] at hnode
    rw [hx.node?_of_not_mem hlt hn, hdead]
    rfl
  kept n kind stamp inputs hn hnode := by
    rw [hx.node?_of_not_mem (Graph.lt_size_of_node? hnode) hn, hnode]
    rfl
  added i d op stamp x y hi hnode := by
    obtain ⟨key, x', y', hdecision⟩ := hx.decided d (List.mem_of_getElem? hi)
    obtain ⟨-, -, stamp', hwidth, hdivision⟩ := Lowering.decision_eq_rewrite_iff.mp hdecision
    obtain ⟨rfl, rfl, rfl, rfl⟩ : op = key.op ∧ stamp = stamp' ∧ x = x' ∧ y = y' := by
      simpa [hnode] using hdivision
    simpa only [hwidth, Constant.ofInt_zero] using hx.fragment hi hdecision

/-- A successful run lowers all divisions or, where that is not required, none. -/
theorem Lowering.loweredTo_of_run_eq_ok {k : Nat} (hrun : l.run w = (.ok k, w')) :
    (l.required = true → k = w.graph.divisions.length ∧ w.graph.LoweredTo l.policy w'.graph) ∧
      (l.required = false → k = 0 ∧ w'.graph = w.graph) := by
  have hok : (l.run w).1 = .ok k := by rw [hrun]
  obtain ⟨hpassed, hfinal, hcount⟩ := (l.run_progress w (.inr ⟨k, hok⟩)).of_ok hok
  rw [hrun] at hfinal
  refine ⟨fun hrequired ↦ ?_, fun hrequired ↦ ?_⟩
  · rw [filter_rewrites_worklist hrequired hpassed] at hfinal hcount
    exact ⟨hcount, hfinal.loweredTo⟩
  · have hnone : (worklist w.graph).filter (l.rewrites w.graph) = [] := by
      rw [List.filter_eq_nil_iff]
      intro id _ hrewrites
      simp [required_of_rewrites hrewrites] at hrequired
    rw [hnone] at hfinal hcount
    exact ⟨hcount, hfinal.eq_of_nil⟩

theorem Lowering.loweredTo_nested :
    let l : Lowering := { target := .aarch64 }
    l.run { graph := .nested } = (.ok 2, (l.run { graph := .nested }).2) ∧
      Graph.nested.LoweredTo .keepCode (l.run { graph := .nested }).2.graph := by
  intro l
  have hrun : l.run { graph := .nested } = (.ok 2, (l.run { graph := .nested }).2) :=
    Prod.ext (by decide +kernel) rfl
  exact ⟨hrun, ((loweredTo_of_run_eq_ok hrun).1 rfl).2⟩

end DivGuard
