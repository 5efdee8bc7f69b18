import DivGuard.Proofs.Interpreter.Operands
import DivGuard.Proofs.Lowering.Calls
import DivGuard.Proofs.Lowering.Idempotence

/-!
# Well-formed graphs

In a well-formed graph inputs are live, do not form cycles and are as many as the kind of their user
takes.  Lowering keeps graphs well-formed and leaves their parameters alone, also where it stops at
an error; the only cause for that is then the width of a division.
-/

namespace DivGuard

variable {l : Lowering} {g h : Graph} {ds : List NodeId} {n : NodeId} {w : Workspace}

namespace Graph

structure WellFormed (g : Graph) : Prop where
  acyclic : g.Acyclic
  closed : g.Closed
  shaped : ∀ id node, g.node? id = some node → node.WellShaped

def parameter? (g : Graph) (id : NodeId) : Option (NodeId × Nat × Stamp) :=
  match g.node? id with
  | some ⟨.parameter index, stamp, _⟩ => some (id, index, stamp)
  | _ => none

/-- The live parameters in increasing order, with their indices and stamps. -/
def parameters (g : Graph) : List (NodeId × Nat × Stamp) :=
  (List.range g.slots.size).filterMap g.parameter?

theorem parameter?_of_mapInputs {f : NodeId → NodeId}
    (hnode : h.node? n = (g.node? n).map (Node.mapInputs f)) :
    h.parameter? n = g.parameter? n := by
  unfold parameter?
  rw [hnode]
  cases g.node? n with
  | none => rfl
  | some node =>
      obtain ⟨kind, stamp, inputs⟩ := node
      cases kind <;> rfl

end Graph

theorem Node.WellShaped.mapInputs {node : Node} (h : node.WellShaped) (f : NodeId → NodeId) :
    (node.mapInputs f).WellShaped := (List.length_map f).trans h

theorem Template.wellShaped_of_mem_guarded {policy : Fallback.Policy} {key : Key}
    {x y base : NodeId} {node : Node} (hnode : node ∈ guarded policy key x y base) :
    node.WellShaped := by
  simp only [guarded_eq, List.mem_cons, List.not_mem_nil, or_false] at hnode
  rcases hnode with rfl | rfl | rfl | rfl <;> rfl

theorem Template.not_parameter_of_mem_guarded {policy : Fallback.Policy} {key : Key}
    {x y base : NodeId} {node : Node} (hnode : node ∈ guarded policy key x y base) (index : Nat) :
    node.kind ≠ .parameter index := by
  simp only [guarded_eq, List.mem_cons, List.not_mem_nil, or_false] at hnode
  rcases hnode with rfl | rfl | rfl | rfl <;> simp

namespace Expansion

theorem wellFormed (hx : Expansion l g ds h) (hg : g.WellFormed) : h.WellFormed where
  acyclic := hx.acyclic hg.closed hg.acyclic
  closed := hx.closed hg.closed
  shaped := by
    intro id node hnode
    rcases hx.node_cases hnode with
      ⟨-, before, hbefore, rfl⟩ | ⟨i, d, key, x, y, j, -, -, -, rfl, hadded⟩
    · exact (hg.shaped id before hbefore).mapInputs _
    · exact Template.wellShaped_of_mem_guarded (List.mem_of_getElem? hadded)

/-- Deleted nodes are divisions, and added ones are not parameters either. -/
theorem parameters_eq (hx : Expansion l g ds h) : h.parameters = g.parameters := by
  have hold : ∀ id ∈ List.range g.slots.size, h.parameter? id = g.parameter? id := by
    intro id hid
    by_cases hmem : id ∈ ds
    · obtain ⟨key, x, y, hdecision⟩ := hx.decided id hmem
      obtain ⟨-, -, stamp, -, hnode⟩ := Lowering.decision_eq_rewrite_iff.mp hdecision
      simp only [Graph.parameter?, hx.node?_of_mem hmem, hnode]
    · exact Graph.parameter?_of_mapInputs (hx.node?_of_not_mem (List.mem_range.mp hid) hmem)
  have hnew : ∀ id ∈ (List.range (4 * ds.length)).map (g.slots.size + ·),
      h.parameter? id = none := by
    intro id hid
    obtain ⟨offset, -, rfl⟩ := List.mem_map.mp hid
    unfold Graph.parameter?
    split
    · next index stamp inputs hnode =>
      rcases hx.node_cases hnode with
        ⟨-, before, hbefore, -⟩ | ⟨i, d, key, x, y, j, -, -, -, -, hadded⟩
      · exact absurd (Graph.lt_size_of_node? hbefore) (by lia)
      · exact absurd rfl
          (Template.not_parameter_of_mem_guarded (List.mem_of_getElem? hadded) index)
    · rfl
  rw [Graph.parameters, hx.size_eq, List.range_add, List.filterMap_append,
    List.filterMap_eq_nil_iff.mpr hnew, List.append_nil, List.filterMap_congr hold]
  rfl

end Expansion

namespace Lowering

/-- A node of the worklist that has two inputs, if it is unchecked, is refused for its width. -/
theorem unsupported_of_refuse {e : UnitError} (hn : n ∈ worklist g)
    (hshaped : ∀ node, g.node? n = some node → node.WellShaped)
    (hrefuse : l.decision g n = .refuse e) :
    ∃ op stamp x y, g.node? n = some ⟨.divRem op, stamp, [x, y]⟩ ∧
      l.target.supportsWidth (stamp.bits?.getD 0) = false ∧
      e = .unsupportedWidth op (stamp.bits?.getD 0) := by
  obtain ⟨⟨kind, stamp, inputs⟩, hnode, hdivision⟩ := mem_worklist.mp hn
  have hlength : inputs.length = kind.arity := hshaped _ hnode
  cases kind with
  | divRem op =>
      obtain ⟨x, y, rfl⟩ := List.length_eq_two.mp hlength
      cases hrequired : l.required with
      | false => cases (decision_of_not_required hnode hrequired).symm.trans hrefuse
      | true =>
          cases hwidth : l.target.supportsWidth (stamp.bits?.getD 0) with
          | true => cases (decision_of_supported hnode hrequired hwidth).symm.trans hrefuse
          | false =>
              cases (decision_of_unsupported hnode hrequired hwidth).symm.trans hrefuse
              exact ⟨op, stamp, x, y, hnode, hwidth, rfl⟩
  | safeDivRem op =>
      have hsafe : l.decision g n = .alreadySafe :=
        decision_eq_alreadySafe_iff.mpr ⟨op, stamp, inputs, hnode⟩
      cases hsafe.symm.trans hrefuse
  | parameter _ | constant _ | equals | guard _ | result => cases hdivision

/-- Whatever is lowered, and whether that succeeds or fails, a well-formed graph stays well-formed
with the same parameters.  A run fails only where the target does not support the width of a
division. -/
theorem wellFormed_after (hw : w.graph.WellFormed) (call : Call) :
    (call.after l w).graph.WellFormed ∧ (call.after l w).graph.parameters = w.graph.parameters ∧
      ∀ e, (l.run w).1 = .error e →
        ∃ d op stamp x y, w.graph.node? d = some ⟨.divRem op, stamp, [x, y]⟩ ∧
          l.target.supportsWidth (stamp.bits?.getD 0) = false ∧
          e = .unsupportedWidth op (stamp.bits?.getD 0) := by
  obtain ⟨ds, hx, -⟩ := (Expansion.refl l w.graph).call_replacements hw.closed call
  rw [List.nil_append] at hx
  refine ⟨hx.wellFormed hw, hx.parameters_eq, ?_⟩
  intro e herror
  obtain ⟨before, rest, hsplit, -, -, hend⟩ := l.run_progress w (.inl hw.closed)
  cases rest with
  | nil => cases hend.symm.trans herror
  | cons bad rest =>
      obtain ⟨e', hrefuse, herror'⟩ := hend
      obtain rfl : e' = e := by simpa [herror] using herror'.symm
      have hbad : bad ∈ worklist w.graph := by simp [hsplit]
      obtain ⟨op, stamp, x, y, hnode, hwidth, he⟩ :=
        unsupported_of_refuse hbad (hw.shaped bad) hrefuse
      exact ⟨bad, op, stamp, x, y, hnode, hwidth, he⟩

end Lowering

theorem Graph.wellFormed_narrow : Graph.narrow.WellFormed := by
  have hordered : Graph.narrow.Ordered := by decide
  have hshaped : ∀ id ∈ Graph.narrow.nodeIds, ∀ node ∈ Graph.narrow.node? id,
      node.WellShaped := by decide
  refine ⟨hordered.acyclic, by decide, ?_⟩
  intro id node hnode
  exact hshaped id (mem_nodeIds.mpr (contains_of_node? hnode)) node hnode

theorem Lowering.wellFormed_after_narrow :
    let l : Lowering := { target := .aarch64 }
    let left := (l.run { graph := .narrow }).2.graph
    Graph.narrow.WellFormed ∧ left ≠ .narrow ∧ left.WellFormed ∧
      left.parameters = [(0, 0, .anyInt 32), (1, 1, .anyInt 16)] ∧
      (l.run { graph := .narrow }).1 = .error (.unsupportedWidth .urem 16) ∧
      ∃ d op stamp x y, Graph.narrow.node? d = some ⟨.divRem op, stamp, [x, y]⟩ ∧
        l.target.supportsWidth (stamp.bits?.getD 0) = false ∧
        UnitError.unsupportedWidth .urem 16 = .unsupportedWidth op (stamp.bits?.getD 0) := by
  intro l left
  have hnarrow : Graph.narrow.WellFormed := Graph.wellFormed_narrow
  have hfail : (l.run { graph := .narrow }).1 = .error (.unsupportedWidth .urem 16) := by
    decide +kernel
  obtain ⟨hleft, hparameters, herror⟩ :=
    wellFormed_after (l := l) (w := { graph := .narrow }) hnarrow .run
  exact ⟨hnarrow, by decide +kernel, hleft, hparameters.trans (by decide), hfail,
    herror _ hfail⟩

end DivGuard
