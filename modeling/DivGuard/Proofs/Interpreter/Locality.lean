import DivGuard.Proofs.Graph.Built
import DivGuard.Proofs.Interpreter.Unfolding
import Mathlib.Tactic.IntervalCases

/-!
# Evaluation is local

What a node evaluates to depends on the nodes below it, on the target, and on the arguments that the
parameters among these nodes read, cut to their widths.  Nothing else in the graph and nothing else
in the arguments has a say, whether the evaluation ends in an outcome or in an error.
-/

namespace DivGuard

variable {run run' : Run} {g h : Graph} {n : NodeId} {node : Node}

/-! ## Edits elsewhere -/

theorem Graph.sameBelow_append (nodes : List Node) (hold : ∀ m, g.Reaches n m → m < g.slots.size) :
    g.SameBelow (g.append nodes) n :=
  fun m hreach ↦ node?_append_of_lt nodes (hold m hreach)

theorem Node.redirect_of_not_mem {old : NodeId} (hnot : old ∉ node.inputs) (new : NodeId) :
    node.redirect old new = node := by
  have hinputs : node.inputs.map (redirection old new) = node.inputs.map id :=
    List.map_congr_left fun input hinput ↦ if_neg (ne_of_mem_of_not_mem hinput hnot)
  rw [Node.redirect_eq_mapInputs, Node.mapInputs, hinputs, List.map_id]

/-- What uses the old node depends on it, so no use below is turned. -/
theorem Graph.sameBelow_redirect {old : NodeId} (hunrelated : ¬g.Reaches n old) (new : NodeId) :
    g.SameBelow (g.redirect old new) n := by
  intro m hreach
  have hm : m ≠ old := fun heq ↦ hunrelated (heq ▸ hreach)
  rw [node?_redirect, if_neg hm]
  cases hnode : g.node? m with
  | none => rfl
  | some node =>
      have hnot : old ∉ node.inputs := fun hold ↦ hunrelated (hreach.tail ⟨node, hnode, hold⟩)
      exact congrArg some (Node.redirect_of_not_mem hnot new)

/-! ## Arguments that are read alike -/

/-- Every parameter among a node and those it depends on finds an argument in both runs, and the two
arguments are the same at the width of the parameter. -/
def Run.ReadsAlike (run run' : Run) (g : Graph) (n : NodeId) : Prop :=
  ∀ m node index, g.Reaches n m → g.node? m = some node → node.kind = .parameter index →
    ∃ a b, run.args[index]? = some a ∧ run'.args[index]? = some b ∧
      signExtend (node.stamp.bits?.getD run.target.wordBits) b =
        signExtend (node.stamp.bits?.getD run.target.wordBits) a

namespace Run

/-- Of the arguments a node sees no more than what its parameter reads. -/
theorem demand_congr (htarget : run'.target = run.target) (id : NodeId)
    (hargument : ∀ index, node.kind = .parameter index →
      run'.argument index (node.stamp.bits?.getD run.target.wordBits) =
        run.argument index (node.stamp.bits?.getD run.target.wordBits)) :
    run'.demand id node = run.demand id node := by
  obtain ⟨target, args⟩ := run
  obtain ⟨_, args'⟩ := run'
  obtain rfl : _ = target := htarget
  obtain ⟨kind, stamp, inputs⟩ := node
  cases kind with
  | parameter index =>
      match inputs with
      | [] => exact congrArg Demand.done (hargument index rfl)
      | _ :: _ => rfl
  | constant _ | equals | guard _ | divRem _ | safeDivRem _ | result =>
      match inputs with
      | [] | [_] | [_, _] | [_, _, _] | _ :: _ :: _ :: _ :: _ => rfl

theorem argument_congr {index bits : Nat} {a b : Int64} (ha : run.args[index]? = some a)
    (hb : run'.args[index]? = some b) (h : signExtend bits b = signExtend bits a) :
    run'.argument index bits = run.argument index bits := by
  simp only [argument, ha, hb, h]

theorem ReadsAlike.demand_eq (h : run.ReadsAlike run' g n) (htarget : run'.target = run.target)
    {m : NodeId} (hreach : g.Reaches n m) (hnode : g.node? m = some node) :
    run'.demand m node = run.demand m node := by
  apply demand_congr htarget
  intro index hkind
  obtain ⟨a, b, ha, hb, hsame⟩ := h m node index hreach hnode hkind
  exact argument_congr ha hb hsame

/-- The other graph need not be acyclic: what is below the node is. -/
theorem evaluate_congr (hacyclic : g.Acyclic) (hsame : g.SameBelow h n)
    (hdemand : ∀ m node, g.Reaches n m → g.node? m = some node →
      run'.demand m node = run.demand m node) :
    run'.evaluate h n = run.evaluate g n :=
  evaluateTo_congr hacyclic.ranking_card_support hsame hdemand
    (Nat.lt_succ_of_le hsame.card_support_le)
    (Nat.lt_succ_of_le (Graph.SameBelow.refl g n).card_support_le)

theorem readsAlike_append (more : List Int64)
    (hgiven : ∀ m node index, g.Reaches n m → g.node? m = some node →
      node.kind = .parameter index → index < run.args.length) :
    run.ReadsAlike ⟨run.target, run.args ++ more⟩ g n := by
  intro m node index hreach hnode hkind
  have hindex : index < run.args.length := hgiven m node index hreach hnode hkind
  have hread : run.args[index]? = some run.args[index] := List.getElem?_eq_getElem hindex
  exact ⟨_, _, hread, (List.getElem?_append_left hindex).trans hread, rfl⟩

/-- A node evaluates alike in a graph with the same nodes below it and with arguments that it reads
alike.  In particular nodes that are added, nodes that are replaced and are not below it, and
further arguments make no difference to it. -/
theorem evaluate_local (run : Run) (hacyclic : g.Acyclic) (n : NodeId) :
    (∀ (run' : Run) (h : Graph), run'.target = run.target → g.SameBelow h n →
      run.ReadsAlike run' g n → run'.evaluate h n = run.evaluate g n) ∧
    (∀ nodes, (∀ m, g.Reaches n m → m < g.slots.size) →
      run.evaluate (g.append nodes) n = run.evaluate g n) ∧
    (∀ old new, ¬g.Reaches n old →
      run.evaluate (g.redirect old new) n = run.evaluate g n) ∧
    ∀ more, (∀ m node index, g.Reaches n m → g.node? m = some node →
        node.kind = .parameter index → index < run.args.length) →
      Run.evaluate ⟨run.target, run.args ++ more⟩ g n = run.evaluate g n := by
  have hreads : ∀ (run' : Run) (h : Graph), run'.target = run.target → g.SameBelow h n →
      run.ReadsAlike run' g n → run'.evaluate h n = run.evaluate g n :=
    fun run' h htarget hsame halike ↦ evaluate_congr hacyclic hsame
      fun m node hreach hnode ↦ halike.demand_eq htarget hreach hnode
  refine ⟨hreads, fun nodes hold ↦ ?_, fun old new hunrelated ↦ ?_, fun more hgiven ↦ ?_⟩
  · exact evaluate_congr hacyclic (Graph.sameBelow_append nodes hold) fun _ _ _ _ ↦ rfl
  · exact evaluate_congr hacyclic (Graph.sameBelow_redirect hunrelated new) fun _ _ _ _ ↦ rfl
  · exact hreads _ g rfl (.refl g n) (readsAlike_append more hgiven)

/-- The quotient of two octets in a graph with another result, where a multiple of 256 is added to
each argument and there is one argument more. -/
theorem evaluate_local_octets :
    let run : Run := ⟨.x86_64, [100, 7]⟩
    let run' : Run := ⟨.x86_64, [356, -249, 1]⟩
    let result : Node := ⟨.result, .void, [0]⟩
    let h := (Graph.octets.redirect 3 2).append [result]
    Graph.octets.Acyclic ∧
      (run'.target = run.target ∧ Graph.octets.SameBelow h 2 ∧
        run.ReadsAlike run' .octets 2 ∧ run'.evaluate h 2 = run.evaluate .octets 2 ∧
        run.evaluate .octets 2 = .ok (.value 14)) ∧
      ((∀ m, Graph.octets.Reaches 2 m → m < Graph.octets.slots.size) ∧
        run.evaluate (Graph.octets.append [result]) 2 = run.evaluate .octets 2) ∧
      (¬Graph.octets.Reaches 2 3 ∧
        run.evaluate (Graph.octets.redirect 3 2) 2 = run.evaluate .octets 2) ∧
      (∀ m node index, Graph.octets.Reaches 2 m → Graph.octets.node? m = some node →
        node.kind = .parameter index → index < run.args.length) ∧
      Run.evaluate ⟨run.target, run.args ++ [1]⟩ .octets 2 = run.evaluate .octets 2 := by
  intro run run' result h
  have hordered : Graph.octets.Ordered := Graph.octets_built.unlowered.ordered
  have hacyclic : Graph.octets.Acyclic := hordered.acyclic
  have hbelow : ∀ m, Graph.octets.Reaches 2 m → m ≤ 2 := fun m hreach ↦
    hordered.le_of_reaches hreach
  have hold : ∀ m, Graph.octets.Reaches 2 m → m < Graph.octets.slots.size := fun m hreach ↦
    Nat.lt_of_le_of_lt (hbelow m hreach) (by decide)
  have hunrelated : ¬Graph.octets.Reaches 2 3 := fun hreach ↦ absurd (hbelow 3 hreach) (by decide)
  have hkept : ∀ m ≤ 2, h.node? m = Graph.octets.node? m := by decide +kernel
  have hsame : Graph.octets.SameBelow h 2 := fun m hreach ↦ hkept m (hbelow m hreach)
  have halike : run.ReadsAlike run' .octets 2 := by
    intro m node index hreach hnode hkind
    have hle : m ≤ 2 := hbelow m hreach
    interval_cases m <;> cases hnode <;> cases hkind
    · exact ⟨100, 356, rfl, rfl, by decide⟩
    · exact ⟨7, -249, rfl, rfl, by decide⟩
  have hgiven : ∀ m node index, Graph.octets.Reaches 2 m → Graph.octets.node? m = some node →
      node.kind = .parameter index → index < run.args.length := by
    intro m node index hreach hnode hkind
    obtain ⟨a, -, ha, -⟩ := halike m node index hreach hnode hkind
    exact (List.getElem?_eq_some_iff.mp ha).1
  have hvalue : run.evaluate .octets 2 = .ok (.value 14) := by decide +kernel
  obtain ⟨hlocal, happend, hredirect, hmore⟩ := run.evaluate_local hacyclic 2
  exact ⟨hacyclic, ⟨rfl, hsame, halike, hlocal run' h rfl hsame halike, hvalue⟩,
    ⟨hold, happend [result] hold⟩, ⟨hunrelated, hredirect 3 2 hunrelated⟩, hgiven,
    hmore [1] hgiven⟩

end Run

end DivGuard
