import DivGuard.Interpreter.Memo
import DivGuard.Proofs.Graph.Built
import DivGuard.Proofs.Interpreter.Unfolding

/-!
# Evaluation does not show its memo

A memo is sound if it holds nothing but outcomes that its nodes have.  Evaluating any node on a
sound memo gives what the node evaluates to and leaves the memo sound, also where it ends in an
error and keeps what it found before.  So evaluations can share a memo and none of them notices.
-/

namespace DivGuard

variable {run : Run} {g : Graph} {id : NodeId} {outcome : Outcome} {memo : Memo}

def Memo.Sound (run : Run) (g : Graph) (memo : Memo) : Prop :=
  ∀ id outcome, memo[id]? = some outcome → run.evaluate g id = .ok outcome

theorem Memo.sound_empty (run : Run) (g : Graph) : Memo.Sound run g {} := by
  intro id outcome hfound
  simp at hfound

theorem Memo.Sound.insert (hmemo : memo.Sound run g) (hid : run.evaluate g id = .ok outcome) :
    Memo.Sound run g (memo.insert id outcome) := by
  intro id' outcome' hfound
  rw [Std.HashMap.getElem?_insert] at hfound
  split at hfound
  · next heq =>
    obtain rfl := eq_of_beq heq
    exact hid.trans (congrArg Except.ok (Option.some.inj hfound))
  · exact hmemo id' outcome' hfound

/-- Started on a sound memo, the computation gives the result and leaves the memo sound. -/
def Run.Recalls {α : Type} (run : Run) (g : Graph) (compute : Memo → α × Memo) (result : α) : Prop :=
  ∀ memo : Memo, memo.Sound run g → (compute memo).1 = result ∧ (compute memo).2.Sound run g

theorem Run.Recalls.pure {α : Type} (run : Run) (g : Graph) (result : α) :
    run.Recalls g (fun memo ↦ (result, memo)) result :=
  fun _ hmemo ↦ ⟨rfl, hmemo⟩

section Demand

variable {evalMemo : NodeId → Memo → Result × Memo} {eval : NodeId → Result}

theorem Demand.recalls_ask {x : NodeId} {next : Outcome → Demand}
    (hx : run.Recalls g (evalMemo x) (eval x))
    (hnext : ∀ outcome, run.Recalls g ((next outcome).answerMemo evalMemo)
      ((next outcome).answer eval)) :
    run.Recalls g ((ask x next).answerMemo evalMemo) ((ask x next).answer eval) := by
  intro memo hmemo
  obtain ⟨hresult, hsound⟩ := hx memo hmemo
  simp only [answerMemo, answer, ← hresult]
  generalize evalMemo x memo = computed at hsound ⊢
  obtain ⟨found, memo'⟩ := computed
  cases found with
  | error e => exact ⟨rfl, hsound⟩
  | ok outcome => exact hnext outcome memo' hsound

theorem Demand.recalls_askValues {xs : List NodeId} (next : List Int64 → Result)
    (h : ∀ x ∈ xs, run.Recalls g (evalMemo x) (eval x)) :
    run.Recalls g ((askValues xs next).answerMemo evalMemo) ((askValues xs next).answer eval) := by
  induction xs generalizing next with
  | nil => exact .pure run g _
  | cons x xs ih =>
      have hrest : ∀ y ∈ xs, run.Recalls g (evalMemo y) (eval y) := fun y hy ↦
        h y (List.mem_cons_of_mem x hy)
      refine recalls_ask (h x List.mem_cons_self) fun outcome ↦ ?_
      cases outcome with
      | value v => exact ih (fun vs ↦ next (v :: vs)) hrest
      | fallback reason => exact .pure run g _
      | trap => exact .pure run g _

end Demand

namespace Run

theorem recalls_demand {evalMemo : NodeId → Memo → Result × Memo} {eval : NodeId → Result}
    (id : NodeId) (node : Node) (h : ∀ x ∈ node.inputs, run.Recalls g (evalMemo x) (eval x)) :
    run.Recalls g ((run.demand id node).answerMemo evalMemo)
      ((run.demand id node).answer eval) := by
  by_cases hshape : node.WellShaped
  · rw [run.demand_of_wellShaped id hshape]
    exact Demand.recalls_askValues _ fun x hx ↦ h x (Node.mem_operands.mp hx)
  · rw [run.demand_of_not_wellShaped id hshape]
    exact .pure run g _

/-- The induction is on the depth, which the rank of a node has to stay below. -/
theorem recalls_evaluateMemoTo (run : Run) {rank : NodeId → Nat} (hrank : g.Ranking rank)
    {depth : Nat} (hdepth : rank id < depth) :
    run.Recalls g (run.evaluateMemoTo g depth id) (run.evaluate g id) := by
  induction depth generalizing id with
  | zero => omega
  | succ depth ih =>
      intro memo hmemo
      simp only [evaluateMemoTo]
      cases hfound : memo[id]? with
      | some outcome => exact ⟨(hmemo id outcome hfound).symm, hmemo⟩
      | none =>
          cases hnode : g.node? id with
          | none => exact ⟨(run.evaluate_of_dead hnode).symm, hmemo⟩
          | some node =>
              have hinputs : ∀ x ∈ node.inputs,
                  run.Recalls g (run.evaluateMemoTo g depth x) (run.evaluate g x) := by
                intro x hx
                have hlt : rank x < rank id := hrank id x ⟨node, hnode, hx⟩
                exact ih (by omega)
              obtain ⟨hresult, hsound⟩ := run.recalls_demand id node hinputs memo hmemo
              rw [← run.evaluate_of_node? hrank.acyclic hnode] at hresult
              simp only
              generalize (run.demand id node).answerMemo (run.evaluateMemoTo g depth) memo = computed
                at hresult hsound ⊢
              obtain ⟨found, memo'⟩ := computed
              cases found with
              | error e => exact ⟨hresult, hsound⟩
              | ok outcome => exact ⟨hresult, hsound.insert hresult.symm⟩

theorem recalls_evaluateMemo (run : Run) (hacyclic : g.Acyclic) (id : NodeId) :
    run.Recalls g (run.evaluateMemo g id) (run.evaluate g id) := by
  obtain ⟨rank, hrank, hbound⟩ := hacyclic.exists_ranking
  have hid : rank id ≤ g.slots.size := hbound id
  exact run.recalls_evaluateMemoTo hrank (by omega)

theorem recalls_evaluateAll (run : Run) (hacyclic : g.Acyclic) (ids : List NodeId) :
    run.Recalls g (run.evaluateAll g ids) (ids.map (run.evaluate g)) := by
  induction ids with
  | nil => exact fun memo hmemo ↦ ⟨rfl, hmemo⟩
  | cons id ids ih =>
      intro memo hmemo
      obtain ⟨hresult, hsound⟩ := run.recalls_evaluateMemo hacyclic id memo hmemo
      obtain ⟨hresults, hsound'⟩ := ih _ hsound
      exact ⟨congrArg₂ List.cons hresult hresults, hsound'⟩

/-- Evaluations that share a memo, in any order and with repetitions, give what each of them gives
on its own, and that is what the node evaluates to without a memo. -/
theorem evaluateAll_eq_map (run : Run) (hacyclic : g.Acyclic) (ids : List NodeId) :
    (run.evaluateAll g ids {}).1 = ids.map (fun id ↦ (run.evaluateMemo g id {}).1) ∧
      ∀ id, (run.evaluateMemo g id {}).1 = run.evaluate g id := by
  have halone : ∀ id, (run.evaluateMemo g id {}).1 = run.evaluate g id := fun id ↦
    (run.recalls_evaluateMemo hacyclic id {} (Memo.sound_empty run g)).1
  refine ⟨?_, halone⟩
  rw [(run.recalls_evaluateAll hacyclic ids {} (Memo.sound_empty run g)).1]
  exact List.map_congr_left fun id _ ↦ (halone id).symm

/-- The division lacks its second argument; what it found of the first stays in the memo. -/
theorem evaluateAll_eq_map_octets :
    let run : Run := ⟨.x86_64, [7]⟩
    Graph.octets.Acyclic ∧ (run.evaluateAll .octets [3, 0, 2, 9, 3] {}).1 =
      [.error (.missingArgument 1 1), .ok (.value 7), .error (.missingArgument 1 1),
        .error (.invalidNode 9), .error (.missingArgument 1 1)] := by
  intro run
  have hacyclic : Graph.octets.Acyclic := Graph.octets_built.acyclic
  obtain ⟨hmap, halone⟩ := run.evaluateAll_eq_map hacyclic [3, 0, 2, 9, 3]
  refine ⟨hacyclic, ?_⟩
  rw [hmap]
  simp only [halone]
  decide +kernel

end Run

end DivGuard
