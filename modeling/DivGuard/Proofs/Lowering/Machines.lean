import DivGuard.Proofs.Graph.Built
import DivGuard.Proofs.Interpreter.Traps
import DivGuard.Proofs.Lowering.ClosedForm
import DivGuard.Proofs.Lowering.Guarding

/-!
# One meaning on both machines

After a complete run every division stands behind a guard, which stops it if the divisor is zero.
So the machines can differ only in the quotient that overflows, on which one of them faults, and in
divisors that are zero at the width of the division without being zero.
-/

namespace DivGuard

variable {l : Lowering} {g h : Graph} {d n : NodeId} {node : Node} {w : Workspace} {run : Run}
  {q : Divide}

namespace Expansion

/-- Where no division was lowered before and all are now, every division is a new one. -/
theorem size_le_of_isDivision (hx : Expansion l g g.divisions h) (hg : g.Unlowered)
    (hnode : h.node? d = some node) (hdivision : node.kind.isDivision = true) :
    g.slots.size ≤ d := by
  rcases hx.node_cases hnode with
    ⟨hmem, ⟨kind, stamp, inputs⟩, hbefore, rfl⟩ | ⟨i, e, key, x, y, j, -, -, -, rfl, -⟩
  · exfalso
    cases kind with
    | divRem op => exact hmem (Graph.mem_divisions.mpr ⟨_, hbefore, rfl⟩)
    | safeDivRem op => exact hg.bare d _ op hbefore rfl
    | parameter _ | constant _ | equals | guard _ | result => cases hdivision
  · lia

/-- The guard of a division whose divisor is zero falls back, so the instruction is not reached. -/
theorem divisor_ne_zero (hx : Expansion l g g.divisions h) (hg : g.Unlowered)
    (hq : run.divide? h d = some q) : q.divisor ≠ 0 := by
  have hacyclic : h.Acyclic := hx.acyclic hg.closed hg.ordered.acyclic
  obtain ⟨node, hnode, hvalues, hdivide⟩ := Run.divide?_eq_some_iff.mp hq
  have hdivision : node.kind.isDivision = true := (Node.of_divide?_eq_some hdivide).1
  have hnew : g.slots.size ≤ d := hx.size_le_of_isDivision hg hnode hdivision
  obtain ⟨e, he, key, x, y, guard, hdecision, rfl, rfl⟩ := hx.division_of_new hnew hnode hdivision
  have hy : IsValue (run.evaluate h (g.image g.divisions y)) := hvalues _ (by simp [Node.operands])
  obtain rfl := Option.some.inj hdivide
  intro hzero
  have hword : wordOf (run.evaluate h (g.image g.divisions y)) = 0 := hzero
  have hfallback := hx.evaluate_image hacyclic he hdecision run
  rw [hy.eq, hword, Run.guardedDivide_of_zero, Run.evaluate_of_divide? hacyclic hq] at hfallback
  exact Divide.outcome_ne_fallback _ _ _ (Except.ok.inj hfallback)

end Expansion

/-- Evaluating any node of a graph whose divisions were all lowered, on both machines.  One never
traps.  The other traps where a quotient overflows that is computed on the way.  Elsewhere they
agree if no divisor on the way is zero at the width of its division only. -/
theorem Lowering.same_on_both_machines (hbuilt : w.graph.Built) (hforce : l.force = true) {k : Nat}
    (hok : (l.run w).1 = .ok k) (run : Run) (n : NodeId) :
    let lowered := (l.run w).2.graph
    let x86 := run.on .x86_64
    let arm := run.on .aarch64
    arm.evaluate lowered n ≠ .ok .trap ∧
      ((∃ q, arm.Executes lowered n q ∧ q.Overflows) → x86.evaluate lowered n = .ok .trap) ∧
      ((∀ q, arm.Executes lowered n q →
          ¬q.Overflows ∧ (q.divisor ≠ 0 → signExtend q.bits q.divisor ≠ 0)) →
        x86.evaluate lowered n = arm.evaluate lowered n) := by
  intro lowered x86 arm
  have hg : w.graph.Unlowered := hbuilt.unlowered
  have hrequired : l.required = true := by simp [required, hforce]
  obtain ⟨hpassed, hx, -⟩ := (l.run_progress w (.inr ⟨k, hok⟩)).of_ok hok
  rw [filter_rewrites_worklist hrequired hpassed] at hx
  have hacyclic : lowered.Acyclic := hx.acyclic hg.closed hbuilt.acyclic
  have hsame : SameUnless (arm.Faulty lowered n) (x86.evaluate lowered n)
      (arm.evaluate lowered n) := run.sameUnless_evaluate hacyclic n
  refine ⟨arm.evaluate_ne_trap rfl hacyclic n, ?_, ?_⟩
  · rintro ⟨q, hexecutes, hoverflows⟩
    exact hsame.traps ⟨q, hexecutes, .inr hoverflows⟩
  · intro hsound
    apply hsame.agrees
    rintro ⟨q, ⟨d, hvisits, hdivide⟩, hzero | hoverflows⟩
    · have hdivisor : q.divisor ≠ 0 := hx.divisor_ne_zero hg hdivide
      exact (hsound q ⟨d, hvisits, hdivide⟩).2 hdivisor hzero
    · exact (hsound q ⟨d, hvisits, hdivide⟩).1 hoverflows

/-- The signed quotient of two parameters. -/
def Graph.quotient : Graph where
  name := "quotient"
  slots := #[some ⟨.parameter 0, .anyInt 32, []⟩, some ⟨.parameter 1, .anyInt 32, []⟩,
    some ⟨.divRem .sdiv, .anyInt 32, [0, 1]⟩, some ⟨.result, .void, [2]⟩]

theorem Graph.quotient_built : Graph.quotient.Built := .division "quotient" .sdiv 32 32

/-- Behind its guard, too, the least integer divided by `-1` traps on one machine only. -/
theorem Lowering.least_by_minus_one_traps :
    let l : Lowering := { target := .x86_64, force := true }
    let run : Run := ⟨.x86_64, [-2147483648, -1]⟩
    let lowered := (l.run { graph := .quotient }).2.graph
    Graph.quotient.Built ∧ l.force = true ∧ (l.run { graph := .quotient }).1 = .ok 1 ∧
      (run.on .x86_64).evaluate lowered 3 = .ok .trap ∧
      (run.on .aarch64).evaluate lowered 3 = .ok (.value (-2147483648)) := by
  refine ⟨Graph.quotient_built, ?_⟩
  decide +kernel

theorem Lowering.same_on_both_machines_quotient :
    let l : Lowering := { target := .x86_64, force := true }
    let lowered := (l.run { graph := .quotient }).2.graph
    let overflow : Run := ⟨.x86_64, [-2147483648, -1]⟩
    let even : Run := ⟨.x86_64, [6, 2]⟩
    Graph.quotient.Built ∧ l.force = true ∧ (l.run { graph := .quotient }).1 = .ok 1 ∧
      (overflow.on .aarch64).Executes lowered 3 ⟨.sdiv, 32, -2147483648, -1⟩ ∧
      (overflow.on .x86_64).evaluate lowered 3 = .ok .trap ∧
      (∀ q, (even.on .aarch64).Executes lowered 3 q → q = ⟨.sdiv, 32, 6, 2⟩) ∧
      (even.on .x86_64).evaluate lowered 3 = .ok (.value 3) := by
  intro l lowered overflow even
  have hok : (l.run { graph := .quotient }).1 = .ok 1 := by decide +kernel
  have hoverflow : (overflow.on .aarch64).Executes lowered 3 ⟨.sdiv, 32, -2147483648, -1⟩ :=
    ⟨7, .single (by decide +kernel), by decide +kernel⟩
  have htrap := (same_on_both_machines Graph.quotient_built rfl hok overflow 3).2.1
    ⟨_, hoverflow, by decide⟩
  have hdivisions : ∀ d ∈ lowered.nodeIds, ∀ q ∈ (even.on .aarch64).divide? lowered d,
      q = ⟨.sdiv, 32, 6, 2⟩ := by decide +kernel
  have hexecutes : ∀ q, (even.on .aarch64).Executes lowered 3 q → q = ⟨.sdiv, 32, 6, 2⟩ := by
    rintro q ⟨d, -, hq⟩
    obtain ⟨node, hnode, -⟩ := Run.divide?_eq_some_iff.mp hq
    exact hdivisions d (Graph.mem_nodeIds.mpr (Graph.contains_of_node? hnode)) q hq
  have hsame : (even.on .x86_64).evaluate lowered 3 = (even.on .aarch64).evaluate lowered 3 := by
    apply (same_on_both_machines Graph.quotient_built rfl hok even 3).2.2
    intro q hq
    obtain rfl := hexecutes q hq
    decide
  have hvalue : (even.on .aarch64).evaluate lowered 3 = .ok (.value 3) := by decide +kernel
  exact ⟨Graph.quotient_built, rfl, hok, hoverflow, htrap, hexecutes, hsame.trans hvalue⟩

end DivGuard
