import DivGuard.Proofs.Interpreter.Traps
import DivGuard.Proofs.Lowering.Calls
import DivGuard.Proofs.Lowering.Guarding
import Mathlib.Tactic.ByContra

/-!
# Lowering preserves meaning

A node of a lowered graph has the value that it had before, unless a lowered division on the way to
it has a divisor of zero: then it falls back.  New values do not come up.  The induction follows the
inputs of the old graph, whose numbers say nothing about the order.
-/

namespace DivGuard

open Relation

variable {l : Lowering} {g h : Graph} {ds : List NodeId} {n d x y : NodeId} {key : Template.Key}
  {run : Run}

/-! ## Outcomes before and after -/

/-- How the outcome of a node may change where a divisor of zero is met, and where it is not. -/
structure Agrees (zero : Prop) (before after : Result) : Prop where
  falls : zero → IsValue before → after = .ok (.fallback .divisionByZero)
  keeps : ¬zero → IsValue before → after = before
  reflects : IsValue after → before = after

theorem Agrees.of_iff {p q : Prop} {r r' : Result} (h : Agrees p r r') (hpq : p ↔ q) :
    Agrees q r r' := propext hpq ▸ h

theorem Agrees.value_or_fallback {zero : Prop} {r r' : Result} (h : Agrees zero r r')
    (hr : IsValue r) : r' = r ∨ r' = .ok (.fallback .divisionByZero) := by
  by_cases hzero : zero
  · exact .inr (h.falls hzero hr)
  · exact .inl (h.keeps hzero hr)

section Demand

variable {id : NodeId} {node : Node} {zero : NodeId → Prop} {eval eval' : NodeId → Result}

/-- A node that meets no zero itself meets those of its inputs. -/
theorem Agrees.answer_demand
    (h : ∀ input ∈ node.inputs, Agrees (zero input) (eval input) (eval' input)) :
    Agrees (∃ input ∈ node.inputs, zero input) ((run.demand id node).answer eval)
      ((run.demand id node).answer eval') where
  falls := by
    rintro ⟨input, hinput, hzero⟩ hvalue
    have hvalues := Demand.inputs_of_isValue hvalue
    have hinput' : eval' input = .ok (.fallback .divisionByZero) :=
      (h input hinput).falls hzero (hvalues input hinput)
    rcases Demand.answer_demand_cases run id node eval' with
      ⟨hvalues', -, -⟩ | ⟨stop, hstop, hnot, heq⟩ | ⟨hshape, -⟩
    · exact absurd (hvalues' input hinput) (by simp [hinput'])
    · rcases (h stop hstop).value_or_fallback (hvalues stop hstop) with hsame | hfall
      · exact absurd (hsame ▸ hvalues stop hstop) hnot
      · rw [heq, hfall]
    · simp [run.demand_of_not_wellShaped id hshape, Demand.answer] at hvalue
  keeps := by
    intro hzero hvalue
    have hvalues := Demand.inputs_of_isValue hvalue
    apply Demand.answer_demand_congr run id node
    intro input hinput
    exact (h input hinput).keeps (fun hz ↦ hzero ⟨input, hinput, hz⟩) (hvalues input hinput)
  reflects := by
    intro hvalue
    have hvalues := Demand.inputs_of_isValue hvalue
    apply Demand.answer_demand_congr run id node
    intro input hinput
    exact (h input hinput).reflects (hvalues input hinput)

/-- A fallback is kept if every input has a value or a fallback, and these are kept. -/
theorem IsFallback.answer_demand
    (h : ∀ input ∈ node.inputs, Agrees (zero input) (eval input) (eval' input))
    (hclean : ∀ input ∈ node.inputs, IsValue (eval input) ∨ IsFallback (eval' input))
    (hfall : IsFallback ((run.demand id node).answer eval)) :
    IsFallback ((run.demand id node).answer eval') := by
  rcases Demand.answer_demand_cases run id node eval' with
    ⟨hvalues, -, -⟩ | ⟨stop, hstop, hnot, heq⟩ | ⟨hshape, -⟩
  · have hsame : (run.demand id node).answer eval = (run.demand id node).answer eval' :=
      Demand.answer_demand_congr run id node fun input hinput ↦
        (h input hinput).reflects (hvalues input hinput)
    exact hsame ▸ hfall
  · rw [heq]
    rcases hclean stop hstop with hvalue | hfallback
    · rcases (h stop hstop).value_or_fallback hvalue with hsame | hzero
      · exact absurd (hsame ▸ hvalue) hnot
      · exact ⟨_, hzero⟩
    · exact hfallback
  · obtain ⟨reason, herror⟩ := hfall
    simp [run.demand_of_not_wellShaped id hshape, Demand.answer] at herror

end Demand

section Divide

variable {op : DivOp} {bits : Nat} {p q : Prop} {rx ry rx' ry' : Result}

theorem Run.values_of_bareDivide (h : IsValue (run.bareDivide op bits rx ry)) :
    IsValue rx ∧ IsValue ry := by
  by_cases hx : IsValue rx
  · by_cases hy : IsValue ry
    · exact ⟨hx, hy⟩
    · rw [hx.eq, Run.bareDivide_value_of_not_isValue _ hy] at h
      exact absurd h hy
  · rw [Run.bareDivide_of_not_isValue hx] at h
    exact absurd h hx

/-- Putting a guard in front of a division. -/
theorem Agrees.guardedDivide (run : Run) (op : DivOp) (bits : Nat) (hx : Agrees p rx rx')
    (hy : Agrees q ry ry') :
    Agrees (ry = .ok (.value 0) ∨ p ∨ q) (run.bareDivide op bits rx ry)
      (run.guardedDivide op bits rx' ry') where
  falls := by
    intro hzero hvalue
    obtain ⟨hrx, hry⟩ := Run.values_of_bareDivide hvalue
    rcases hy.value_or_fallback hry with hsame | hfall
    · rw [hsame, hry.eq]
      by_cases hb : wordOf ry = 0
      · rw [hb, Run.guardedDivide_of_zero]
      · have hp : p := by
          rcases hzero with hzero | hp | hq
          · simp [hzero] at hb
          · exact hp
          · have hfall := hy.falls hq hry
            rw [hsame, hry.eq] at hfall
            cases hfall
        rw [Run.guardedDivide_of_ne_zero hb, hx.falls hp hrx]
        rfl
    · rw [hfall]
      rfl
  keeps := by
    intro hzero hvalue
    obtain ⟨hrx, hry⟩ := Run.values_of_bareDivide hvalue
    have hb : wordOf ry ≠ 0 := fun hb ↦ hzero (.inl (hb ▸ hry.eq))
    rw [hy.keeps (fun hq ↦ hzero (.inr (.inr hq))) hry,
      hx.keeps (fun hp ↦ hzero (.inr (.inl hp))) hrx, hry.eq, Run.guardedDivide_of_ne_zero hb]
  reflects := by
    intro hvalue
    have hry' : IsValue ry' := by
      by_contra hnot
      rw [Run.guardedDivide_of_not_isValue hnot] at hvalue
      exact hnot hvalue
    have hb : wordOf ry' ≠ 0 := by
      intro hb
      rw [hry'.eq, hb, Run.guardedDivide_of_zero] at hvalue
      exact not_isValue_fallback _ hvalue
    rw [hry'.eq, Run.guardedDivide_of_ne_zero hb] at hvalue ⊢
    have hrx' := (Run.values_of_bareDivide hvalue).1
    rw [hx.reflects hrx', hy.reflects hry', ← hry'.eq]

theorem IsFallback.guardedDivide (hx : Agrees p rx rx') (hy : Agrees q ry ry')
    (hcleanx : IsValue rx ∨ IsFallback rx') (hcleany : IsValue ry ∨ IsFallback ry')
    (hfall : IsFallback (run.bareDivide op bits rx ry)) :
    IsFallback (run.guardedDivide op bits rx' ry') := by
  have hsettled : ∀ {zero : Prop} {r r' : Result}, Agrees zero r r' →
      IsValue r ∨ IsFallback r' → (r' = r ∧ IsValue r) ∨ IsFallback r' := by
    rintro zero r r' hr (hvalue | hfallback)
    · rcases hr.value_or_fallback hvalue with hsame | hzero
      · exact .inl ⟨hsame, hvalue⟩
      · exact .inr ⟨_, hzero⟩
    · exact .inr hfallback
  rcases hsettled hy hcleany with ⟨rfl, hry⟩ | hy'
  · by_cases hb : wordOf ry' = 0
    · rw [hry.eq, hb]
      exact ⟨_, rfl⟩
    · rw [hry.eq, Run.guardedDivide_of_ne_zero hb]
      rcases hsettled hx hcleanx with ⟨rfl, hrx⟩ | hx'
      · rwa [← hry.eq]
      · rwa [Run.bareDivide_of_not_isValue hx'.not_isValue]
  · rwa [Run.guardedDivide_of_not_isValue hy'.not_isValue]

end Divide

/-! ## Whole graphs -/

namespace Graph

/-- Some division among `ds`, the node itself or one of its transitive inputs, has a divisor that
evaluates to zero. -/
def MeetsZero (g : Graph) (run : Run) (ds : List NodeId) (n : NodeId) : Prop :=
  ∃ d ∈ ds, g.Reaches n d ∧ ∃ op x y, g.division? d = some (op, x, y) ∧
    run.evaluate g y = .ok (.value 0)

theorem meetsZero_iff_of_not_mem {node : Node} (hnode : g.node? n = some node) (hn : n ∉ ds) :
    g.MeetsZero run ds n ↔ ∃ input ∈ node.inputs, g.MeetsZero run ds input := by
  constructor
  · rintro ⟨d, hd, hreach, hzero⟩
    rcases hreach.cases_head with rfl | ⟨input, ⟨node', hnode', hinput⟩, hrest⟩
    · exact absurd hd hn
    · obtain rfl := Option.some.inj (hnode.symm.trans hnode')
      exact ⟨input, hinput, d, hd, hrest, hzero⟩
  · rintro ⟨input, hinput, d, hd, hreach, hzero⟩
    exact ⟨d, hd, .head ⟨node, hnode, hinput⟩ hreach, hzero⟩

theorem meetsZero_iff_of_mem {op : DivOp} {stamp : Stamp}
    (hnode : g.node? n = some ⟨.divRem op, stamp, [x, y]⟩) (hn : n ∈ ds) :
    g.MeetsZero run ds n ↔ run.evaluate g y = .ok (.value 0) ∨ g.MeetsZero run ds x ∨
      g.MeetsZero run ds y := by
  have hdivision : g.division? n = some (op, x, y) := by
    rw [division?, hnode]
  constructor
  · rintro ⟨d, hd, hreach, hzero⟩
    rcases hreach.cases_head with rfl | ⟨input, ⟨node, hnode', hinput⟩, hrest⟩
    · obtain ⟨op', x', y', hdivision', hy⟩ := hzero
      obtain ⟨rfl, rfl, rfl⟩ : op = op' ∧ x = x' ∧ y = y' := by simpa [hdivision] using hdivision'
      exact .inl hy
    · obtain rfl := Option.some.inj (hnode.symm.trans hnode')
      have hoperand : input = x ∨ input = y := by simpa using hinput
      rcases hoperand with rfl | rfl
      · exact .inr (.inl ⟨d, hd, hrest, hzero⟩)
      · exact .inr (.inr ⟨d, hd, hrest, hzero⟩)
  · rintro (hy | ⟨d, hd, hreach, hzero⟩ | ⟨d, hd, hreach, hzero⟩)
    · exact ⟨n, hn, .refl, op, x, y, hdivision, hy⟩
    · exact ⟨d, hd, .head ⟨_, hnode, by simp⟩ hreach, hzero⟩
    · exact ⟨d, hd, .head ⟨_, hnode, by simp⟩ hreach, hzero⟩

end Graph

namespace Expansion

theorem evaluate_kept (hx : Expansion l g ds h) (hacyclic : h.Acyclic) {node : Node}
    (hnode : g.node? n = some node) (hn : n ∉ ds) (run : Run) :
    run.evaluate h (g.image ds n) =
      (run.demand n node).answer fun m ↦ run.evaluate h (g.image ds m) := by
  have hkept : h.node? n = some (node.mapInputs (g.image ds)) := by
    rw [hx.node?_of_not_mem (Graph.lt_size_of_node? hnode) hn, hnode]
    rfl
  rw [Graph.image_of_not_mem hn, run.evaluate_of_node? hacyclic hkept]
  exact Demand.answer_demand_mapInputs run n node (g.image ds) (run.evaluate h)

/-- A lowered division was as wide as its guarded form is: a stamp that is no integer is lowered as
width 0 only on a target whose words have that width. -/
theorem evaluate_lowered (hacyclic : g.Acyclic) (hdecision : l.decision g d = .rewrite key x y)
    (htarget : run.target = l.target) :
    run.evaluate g d =
      run.bareDivide key.op key.width (run.evaluate g x) (run.evaluate g y) := by
  obtain ⟨-, hwidth, stamp, hstamp, hnode⟩ := Lowering.decision_eq_rewrite_iff.mp hdecision
  rw [run.evaluate_divRem hacyclic hnode]
  have hbits : stamp.bits?.getD run.target.wordBits = key.width := by
    cases hstamp' : stamp.bits? with
    | some bits => simpa [hstamp'] using hstamp
    | none =>
        obtain hzero : 0 = key.width := by simpa [hstamp'] using hstamp
        have hword : key.width = 32 ∨ key.width = l.target.wordBits := by
          simpa [Target.supportsWidth] using hwidth
        rcases hword with hword | hword
        · omega
        · rw [htarget, hword]
          rfl
  rw [hbits]

variable (hx : Expansion l g ds h) (hclosed : g.Closed) (hacyclic : g.Acyclic)
  (htarget : run.target = l.target)

include hx hclosed hacyclic htarget

theorem agrees (n : NodeId) (hn : g.contains n = true) :
    Agrees (g.MeetsZero run ds n) (run.evaluate g n) (run.evaluate h (g.image ds n)) := by
  have hacyclic' : h.Acyclic := hx.acyclic hclosed hacyclic
  induction n using hacyclic.induction with
  | step n ih =>
      obtain ⟨node, hnode⟩ := Graph.contains_iff.mp hn
      have hinputs : ∀ input ∈ node.inputs, Agrees (g.MeetsZero run ds input)
          (run.evaluate g input) (run.evaluate h (g.image ds input)) := fun input hinput ↦
        ih input ⟨node, hnode, hinput⟩ (hclosed n input ⟨node, hnode, hinput⟩)
      by_cases hmem : n ∈ ds
      · obtain ⟨key, x, y, hdecision⟩ := hx.decided n hmem
        rw [hx.evaluate_image hacyclic' hmem hdecision,
          evaluate_lowered hacyclic hdecision htarget]
        obtain ⟨-, -, stamp, -, hdivision⟩ := Lowering.decision_eq_rewrite_iff.mp hdecision
        obtain rfl := Option.some.inj (hnode.symm.trans hdivision)
        exact (Agrees.guardedDivide run key.op key.width (hinputs x (by simp))
          (hinputs y (by simp))).of_iff (Graph.meetsZero_iff_of_mem hdivision hmem).symm
      · rw [hx.evaluate_kept hacyclic' hnode hmem, run.evaluate_of_node? hacyclic hnode]
        exact (Agrees.answer_demand hinputs).of_iff
          (Graph.meetsZero_iff_of_not_mem hnode hmem).symm

/-- Fallbacks stay fallbacks where division does not trap and no input is in error. -/
theorem isFallback (hfree : run.target.arch.faultsOnZero = false) (n : NodeId)
    (hn : g.contains n = true)
    (hclean : ∀ m, TransGen g.Uses n m → ∀ e, run.evaluate g m ≠ .error e)
    (hfall : IsFallback (run.evaluate g n)) : IsFallback (run.evaluate h (g.image ds n)) := by
  have hacyclic' : h.Acyclic := hx.acyclic hclosed hacyclic
  induction n using hacyclic.induction with
  | step n ih =>
      obtain ⟨node, hnode⟩ := Graph.contains_iff.mp hn
      have huse : ∀ input ∈ node.inputs, g.Uses n input :=
        fun input hinput ↦ ⟨node, hnode, hinput⟩
      have hinputs : ∀ input ∈ node.inputs, Agrees (g.MeetsZero run ds input)
          (run.evaluate g input) (run.evaluate h (g.image ds input)) := fun input hinput ↦
        hx.agrees hclosed hacyclic htarget input (hclosed n input (huse input hinput))
      have hsettled : ∀ input ∈ node.inputs, IsValue (run.evaluate g input) ∨
          IsFallback (run.evaluate h (g.image ds input)) := by
        intro input hinput
        cases heval : run.evaluate g input with
        | error e => exact absurd heval (hclean input (.single (huse input hinput)) e)
        | ok outcome =>
            cases outcome with
            | value v => exact .inl ⟨v, rfl⟩
            | trap => exact absurd heval (run.evaluate_ne_trap hfree hacyclic input)
            | fallback reason =>
                refine .inr (ih input (huse input hinput) (hclosed n input (huse input hinput)) ?_
                  ⟨reason, heval⟩)
                exact fun m hm ↦ hclean m (.head (huse input hinput) hm)
      by_cases hmem : n ∈ ds
      · obtain ⟨key, x, y, hdecision⟩ := hx.decided n hmem
        obtain ⟨-, -, stamp, -, hdivision⟩ := Lowering.decision_eq_rewrite_iff.mp hdecision
        obtain rfl := Option.some.inj (hnode.symm.trans hdivision)
        rw [evaluate_lowered hacyclic hdecision htarget] at hfall
        rw [hx.evaluate_image hacyclic' hmem hdecision]
        exact IsFallback.guardedDivide (hinputs x (by simp)) (hinputs y (by simp))
          (hsettled x (by simp)) (hsettled y (by simp)) hfall
      · rw [run.evaluate_of_node? hacyclic hnode] at hfall
        rw [hx.evaluate_kept hacyclic' hnode hmem]
        exact IsFallback.answer_demand hinputs hsettled hfall

end Expansion

/-- What calls that lower a graph make of the outcome of a node, on the machine they lower for. -/
theorem Lowering.evaluate_perform (l : Lowering) (calls : List Call) (w : Workspace)
    (hacyclic : w.graph.Acyclic) (hclosed : w.graph.Closed) (args : List Int64)
    (hn : w.graph.contains n = true) :
    let run : Run := ⟨l.target, args⟩
    let log := (l.perform calls w).1
    let before := run.evaluate w.graph n
    let after := run.evaluate (l.perform calls w).2.graph (standIn log n)
    (∀ v, before = .ok (.value v) →
      (¬w.graph.MeetsZero run (log.map Prod.fst) n → after = .ok (.value v)) ∧
        (w.graph.MeetsZero run (log.map Prod.fst) n →
          after = .ok (.fallback .divisionByZero))) ∧
      (∀ v, after = .ok (.value v) → before = .ok (.value v)) ∧
      (l.target.arch = .aarch64 →
        (∀ m, TransGen w.graph.Uses n m → ∀ e, run.evaluate w.graph m ≠ .error e) →
        (∃ reason, before = .ok (.fallback reason)) →
          ∃ reason, after = .ok (.fallback reason)) := by
  intro run log before after
  obtain ⟨ds, hx, hlog⟩ := l.perform_expansion calls w hclosed
  have hds : log.map Prod.fst = ds := by
    simp [log, hlog, Graph.standIns, Function.comp_def]
  have hafter : after = run.evaluate (l.perform calls w).2.graph (w.graph.image ds n) := by
    simp only [after, log, hlog, Graph.standIn_standIns]
  have hagrees : Agrees (w.graph.MeetsZero run ds n) before
      (run.evaluate (l.perform calls w).2.graph (w.graph.image ds n)) :=
    hx.agrees hclosed hacyclic rfl n hn
  rw [hds, hafter]
  refine ⟨fun v hv ↦ ⟨fun hzero ↦ ?_, fun hzero ↦ ?_⟩, fun v hv ↦ ?_, fun harch hclean hfall ↦ ?_⟩
  · exact (hagrees.keeps hzero ⟨v, hv⟩).trans hv
  · exact hagrees.falls hzero ⟨v, hv⟩
  · exact (hagrees.reflects ⟨v, hv⟩).trans hv
  · have hfree : run.target.arch.faultsOnZero = false := by
      simp [run, harch, Arch.faultsOnZero]
    exact hx.isFallback hclosed hacyclic rfl hfree n hn hclean hfall

theorem Lowering.evaluate_perform_nested :
    let l : Lowering := { target := .aarch64 }
    let run : Run := ⟨l.target, [7, 0]⟩
    let performed := l.perform [.run] { graph := .nested }
    Graph.nested.Acyclic ∧ Graph.nested.Closed ∧ run.evaluate .nested 4 = .ok (.value 0) ∧
      Graph.nested.MeetsZero run (performed.1.map Prod.fst) 4 ∧
      run.evaluate performed.2.graph (standIn performed.1 4) =
        .ok (.fallback .divisionByZero) := by
  intro l run performed
  have hranking : Graph.nested.Ranking fun n ↦ [0, 0, 2, 1, 3].getD n 0 := by decide
  have hclosed : Graph.nested.Closed := by decide
  have hvalue : run.evaluate .nested 4 = .ok (.value 0) := by decide +kernel
  have hzero : Graph.nested.MeetsZero run (performed.1.map Prod.fst) 4 := by
    refine ⟨2, by decide +kernel, .single ⟨_, rfl, by decide⟩, .sdiv, 3, 1, rfl, ?_⟩
    decide +kernel
  have hmeaning := evaluate_perform l [.run] { graph := .nested } hranking.acyclic hclosed [7, 0]
    (n := 4) (by decide)
  exact ⟨hranking.acyclic, hclosed, hvalue, hzero, (hmeaning.1 0 hvalue).2 hzero⟩

end DivGuard
