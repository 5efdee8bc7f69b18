import DivGuard.Interpreter.Evaluate
import DivGuard.Proofs.Graph.Dependence
import DivGuard.Proofs.Integer.Division
import DivGuard.Proofs.Interpreter.Operands

/-!
# Evaluation without depths

In an acyclic graph the depth that evaluation starts with is always enough, so the outcome of a node
is what its demand makes of the outcomes of its inputs, and depths need not be mentioned again.
-/

namespace DivGuard

theorem Demand.answer_demand_congr (run : Run) (id : NodeId) (node : Node)
    {eval eval' : NodeId → Result} (h : ∀ input ∈ node.inputs, eval input = eval' input) :
    (run.demand id node).answer eval = (run.demand id node).answer eval' := by
  by_cases hshape : node.WellShaped
  · rw [run.demand_of_wellShaped id hshape]
    exact answer_askValues_congr _ fun x hx ↦ h x (Node.mem_operands.mp hx)
  · rw [run.demand_of_not_wellShaped id hshape]
    rfl

theorem Demand.answer_demand_mapInputs (run : Run) (id : NodeId) (node : Node)
    (f : NodeId → NodeId) (eval : NodeId → Result) :
    (run.demand id (node.mapInputs f)).answer eval =
      (run.demand id node).answer fun x ↦ eval (f x) := by
  have hlength : (node.mapInputs f).inputs.length = node.inputs.length := List.length_map f
  by_cases hshape : node.WellShaped
  · have hshape' : (node.mapInputs f).WellShaped := hlength.trans hshape
    rw [run.demand_of_wellShaped id hshape, run.demand_of_wellShaped id hshape',
      Node.operands_mapInputs, run.compute_mapInputs, answer_askValues_map]
  · have hshape' : ¬(node.mapInputs f).WellShaped := fun h ↦ hshape (hlength.symm.trans h)
    rw [run.demand_of_not_wellShaped id hshape, run.demand_of_not_wellShaped id hshape']
    rfl

/-- A node computes with the values of its inputs, or passes on the outcome of one without a value,
or is invalid. -/
theorem Demand.answer_demand_cases (run : Run) (id : NodeId) (node : Node)
    (eval : NodeId → Result) :
    ((∀ input ∈ node.inputs, IsValue (eval input)) ∧ node.WellShaped ∧
      (run.demand id node).answer eval =
        run.compute id node (node.operands.map fun x ↦ wordOf (eval x))) ∨
    (∃ input ∈ node.inputs, ¬IsValue (eval input) ∧
      (run.demand id node).answer eval = eval input) ∨
    (¬node.WellShaped ∧ (run.demand id node).answer eval = .error (.invalidNode id)) := by
  by_cases hshape : node.WellShaped
  · rw [run.demand_of_wellShaped id hshape]
    simp only [← Node.mem_operands]
    rcases answer_askValues_cases eval node.operands (run.compute id node) with
      ⟨hvalues, hanswer⟩ | hstop
    · exact .inl ⟨hvalues, hshape, hanswer⟩
    · exact .inr (.inl hstop)
  · rw [run.demand_of_not_wellShaped id hshape]
    exact .inr (.inr ⟨hshape, rfl⟩)

theorem Demand.inputs_of_isValue {run : Run} {id : NodeId} {node : Node} {eval : NodeId → Result}
    (h : IsValue ((run.demand id node).answer eval)) :
    ∀ input ∈ node.inputs, IsValue (eval input) := by
  rcases answer_demand_cases run id node eval with
    ⟨hvalues, -, -⟩ | ⟨input, -, hstop, heq⟩ | ⟨-, heq⟩
  · exact hvalues
  · exact absurd (heq ▸ h) hstop
  · simp [heq] at h

namespace Run

variable {g : Graph} {id : NodeId} {node : Node}

/-- The induction is on one of the depths; the rank of a node has to stay below both. -/
theorem evaluateTo_congr {run run' : Run} {h : Graph} {rank : NodeId → Nat} (hrank : g.Ranking rank)
    (hsame : g.SameBelow h id)
    (hdemand : ∀ m node, g.Reaches id m → g.node? m = some node →
      run'.demand m node = run.demand m node)
    {m n : Nat} (hm : rank id < m) (hn : rank id < n) :
    run'.evaluateTo h m id = run.evaluateTo g n id := by
  induction m generalizing n id with
  | zero => omega
  | succ m ih =>
      obtain ⟨n, rfl⟩ : ∃ k, n = k + 1 := ⟨n - 1, by omega⟩
      simp only [evaluateTo, hsame id .refl]
      cases hnode : g.node? id with
      | none => rfl
      | some node =>
          simp only [hdemand id node .refl hnode]
          apply Demand.answer_demand_congr run id node
          intro input hinput
          have huse : g.Uses id input := ⟨node, hnode, hinput⟩
          have hlt : rank input < rank id := hrank id input huse
          exact ih (hsame.of_uses huse) (fun i next hreach ↦ hdemand i next (.head huse hreach))
            (by omega) (by omega)

theorem evaluate_of_dead (run : Run) (h : g.node? id = none) :
    run.evaluate g id = .error (.invalidNode id) := by
  simp only [evaluate, evaluateTo, h]

theorem evaluate_of_node? (run : Run) (hacyclic : g.Acyclic) (hnode : g.node? id = some node) :
    run.evaluate g id = (run.demand id node).answer (run.evaluate g) := by
  obtain ⟨rank, hrank, hbound⟩ := hacyclic.exists_ranking
  simp only [evaluate, evaluateTo, hnode]
  apply Demand.answer_demand_congr run id node
  intro input hinput
  have hlt : rank input < rank id := hrank id input ⟨node, hnode, hinput⟩
  have hid : rank id ≤ g.slots.size := hbound id
  exact evaluateTo_congr hrank (.refl g input) (fun _ _ _ _ ↦ rfl) (by omega) (by omega)

theorem compute_ne_trap (run : Run) (h : run.target.arch.faultsOnZero = false) (id : NodeId)
    (node : Node) (values : List Int64) : run.compute id node values ≠ .ok .trap := by
  have hdivide : ∀ op bits a b, run.target.divide op bits a b ≠ .trap := by
    intro op bits a b
    obtain ⟨v, hv⟩ := Target.divide_eq_value h op bits a b
    simp [hv]
  unfold compute argument
  split
  · split <;> simp
  · simp
  · simp
  · split <;> simp
  · simpa using hdivide _ _ _ _
  · simpa using hdivide _ _ _ _
  · simp
  · simp

end Run

end DivGuard
