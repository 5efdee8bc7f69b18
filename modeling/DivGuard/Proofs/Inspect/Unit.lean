import DivGuard.Inspect.Report
import DivGuard.Proofs.Graph.Built
import DivGuard.Proofs.Integer.Reduction
import DivGuard.Proofs.Interpreter.Spills
import DivGuard.Proofs.Lowering.Guarding
import DivGuard.Proofs.Lowering.Meaning

/-!
# The unit of the inspector

The unit has a single division, of its two parameters.  Lowering leaves it alone, refuses it or puts
the division behind a guard, and each form evaluates to what the divide instruction makes of the two
arguments, extended from the width.
-/

namespace DivGuard

open Inspect

variable {op : DivOp} {bits : Nat} {x y : Int64} {target : Target} {l : Lowering}

/-! ## The divide instruction -/

/-- The least integer of the width is to be divided by `-1`. -/
def DivOp.OverflowsAt (op : DivOp) (bits : Nat) (x y : Int64) : Prop :=
  op.isSigned = true ∧ op.reduce bits x = -2 ^ (bits - 1) ∧ op.reduce bits y = -1

instance (op : DivOp) (bits : Nat) (x y : Int64) : Decidable (op.OverflowsAt bits x y) :=
  inferInstanceAs (Decidable (_ ∧ _ ∧ _))

theorem DivOp.overflowsAt_iff (hpos : 1 ≤ bits) (hle : bits ≤ 64) :
    op.OverflowsAt bits x y ↔
      Divide.Overflows ⟨op, bits, signExtend bits x, signExtend bits y⟩ := by
  obtain ⟨n, rfl⟩ := Nat.exists_eq_add_of_le' hpos
  have hleast : (leastInt (n + 1)).toInt = -2 ^ n := by
    rw [toInt_leastInt, Nat.min_eq_left (by omega)]
    push_cast
    rfl
  have hone : (-1 : Int64).toInt = -1 := by decide
  unfold OverflowsAt Divide.Overflows
  refine and_congr_right fun hsigned ↦ ?_
  rw [signExtend_signExtend, signExtend_signExtend, ← Int64.toInt_inj, ← Int64.toInt_inj,
    toInt_signExtend_eq_bmod, toInt_signExtend_eq_bmod, hleast, hone]
  simp [reduce, hsigned]

theorem Arch.faultsOnZero_iff {arch : Arch} : arch.faultsOnZero = true ↔ arch = .x86_64 := by
  cases arch <;> decide

/-- What a divide instruction leaves of two operands that are not a division by zero. -/
theorem Target.divide_cases (target : Target) (op : DivOp) (hpos : 1 ≤ bits) (hle : bits ≤ 64)
    (hzero : op.reduce bits y ≠ 0) :
    if target.arch = .x86_64 ∧ op.OverflowsAt bits x y then
      target.divide op bits (signExtend bits x) (signExtend bits y) = .trap
    else ∃ v, target.divide op bits (signExtend bits x) (signExtend bits y) = .value v ∧
      v.toInt ≡ op.onInts (op.reduce bits x) (op.reduce bits y) [ZMOD 2 ^ bits] ∧
      (bits = 32 ∨ bits = 64 → signExtend bits v = v) := by
  let q : Divide := ⟨op, bits, signExtend bits x, signExtend bits y⟩
  have hoverflows : op.OverflowsAt bits x y ↔ q.Overflows := DivOp.overflowsAt_iff hpos hle
  split
  · next h =>
    exact Divide.outcome_of_faults (q := q) (Arch.faultsOnZero_iff.mpr h.1)
      (.inr (hoverflows.mp h.2))
  · next h =>
    have hdivisor : signExtend q.bits q.divisor ≠ 0 := by
      rw [signExtend_signExtend]
      exact fun h0 ↦ hzero (op.reduce_eq_zero_iff.mpr h0)
    have hfits : target.arch.faultsOnZero = true → ¬q.Overflows := fun hfaults hover ↦
      h ⟨Arch.faultsOnZero_iff.mp hfaults, hoverflows.mpr hover⟩
    obtain ⟨v, hfold, hvalue⟩ := Divide.outcome_of_fold hdivisor hfits
    exact ⟨v, hvalue, DivOp.fold_modEq hle hfold,
      fun hbits ↦ DivOp.signExtend_of_fold (hbits.imp_right Eq.ge) hfold⟩

namespace Inspect

/-! ## The unit -/

/-- The unit before it is lowered. -/
def divisionGraph (op : DivOp) (bits : Nat) : Graph where
  name := s!"{op.name}_i{bits}"
  slots := #[some ⟨.parameter 0, .anyInt bits, []⟩, some ⟨.parameter 1, .anyInt bits, []⟩,
    some ⟨.divRem op, .anyInt bits, [0, 1]⟩, some ⟨.result, .void, [2]⟩]

theorem divisionUnit_eq (op : DivOp) (bits : Nat) :
    divisionUnit op bits = .ok (3, divisionGraph op bits) := rfl

theorem divisionGraph_built (op : DivOp) (bits : Nat) : (divisionGraph op bits).Built :=
  .division _ op bits bits

theorem worklist_divisionGraph (op : DivOp) (bits : Nat) :
    Lowering.worklist (divisionGraph op bits) = [2] := rfl

theorem division_divisionGraph (op : DivOp) (bits : Nat) :
    (divisionGraph op bits).node? 2 = some ⟨.divRem op, .anyInt bits, [0, 1]⟩ := rfl

/-! ## Lowering the unit -/

theorem run_divisionGraph_of_not_required (h : l.required = false) (op : DivOp) (bits : Nat) :
    ∃ w, l.run { graph := divisionGraph op bits } = (.ok 0, w) ∧ w.graph = divisionGraph op bits ∧
      w.session.statistics = { skipped := 1 } := by
  have hskips : l.Skips (divisionGraph op bits) 2 :=
    .inr (Lowering.decision_of_not_required (division_divisionGraph op bits) h)
  rw [Lowering.run_eq_lowerAll, worklist_divisionGraph, Lowering.lowerAll_of_skips hskips]
  exact ⟨_, rfl, rfl, rfl⟩

theorem run_divisionGraph_of_unsupported (hrequired : l.required = true)
    (hwidth : l.target.supportsWidth bits = false) (op : DivOp) :
    ∃ w, l.run { graph := divisionGraph op bits } = (.error (.unsupportedWidth op bits), w) := by
  have hrefuse : l.decision (divisionGraph op bits) 2 = .refuse (.unsupportedWidth op bits) :=
    Lowering.decision_of_unsupported (division_divisionGraph op bits) hrequired hwidth
  rw [Lowering.run_eq_lowerAll, worklist_divisionGraph, Lowering.lowerAll_of_refuse hrefuse]
  exact ⟨_, rfl⟩

/-- The unit with the division behind a guard. -/
def guardedGraph (l : Lowering) (op : DivOp) (bits : Nat) : Graph :=
  (divisionGraph op bits).guard l.policy ⟨op, bits⟩ 2 0 1

theorem guardedGraph_eq (l : Lowering) (op : DivOp) (bits : Nat) :
    guardedGraph l op bits = {
      name := s!"{op.name}_i{bits}"
      slots := #[some ⟨.parameter 0, .anyInt bits, []⟩, some ⟨.parameter 1, .anyInt bits, []⟩,
        none, some ⟨.result, .void, [7]⟩, some ⟨.constant (.ofInt bits 0), .oneInt bits 0, []⟩,
        some ⟨.equals, .int (.between 32 0 1), [1, 4]⟩,
        some ⟨.guard (l.policy .divisionByZero), .void, [5]⟩,
        some ⟨.safeDivRem op, .anyInt bits, [0, 1, 6]⟩] } := by
  simp [guardedGraph, Graph.guard, Template.guarded_eq, Graph.push, Graph.redirect, divisionGraph,
    Node.redirect]

theorem decision_divisionGraph_eq_rewrite (hrequired : l.required = true)
    (hwidth : l.target.supportsWidth bits = true) (op : DivOp) :
    l.decision (divisionGraph op bits) 2 = .rewrite ⟨op, bits⟩ 0 1 :=
  Lowering.decision_of_supported (division_divisionGraph op bits) hrequired hwidth

theorem run_divisionGraph_of_supported (hrequired : l.required = true)
    (hwidth : l.target.supportsWidth bits = true) (op : DivOp) :
    ∃ w, l.run { graph := divisionGraph op bits } = (.ok 1, w) ∧
      w.graph = guardedGraph l op bits ∧
      w.session.statistics =
        { lowered := 1, instantiated := 1, created := 4, operations := ⟨[(op.name, 1)]⟩ } := by
  have hstep : ∀ session, l.lowerWith 2 [] ⟨divisionGraph op bits, session, {}⟩ = _ := fun session ↦
    Lowering.lowerWith_of_rewrite (w := ⟨divisionGraph op bits, session, {}⟩)
      (decision_divisionGraph_eq_rewrite hrequired hwidth op) rfl rfl
  rw [Lowering.run_eq_lowerAll, worklist_divisionGraph, Lowering.lowerAll_of_replaced (hstep _)]
  exact ⟨_, rfl, rfl, rfl⟩

/-! ## Evaluating the unit -/

section Evaluate

variable {ds : List NodeId} {h : Graph}

/-- In whatever became of the unit, the result is what stands for the division, and the parameters
are the arguments extended from the width. -/
theorem evaluate_unit (hx : Expansion l (divisionGraph op bits) ds h) (hds : ds ⊆ [2])
    (target : Target) (x y : Int64) :
    let run : Run := ⟨target, [x, y]⟩
    run.evaluate h 3 = run.evaluate h ((divisionGraph op bits).image ds 2) ∧
      run.evaluate h ((divisionGraph op bits).image ds 0) = .ok (.value (signExtend bits x)) ∧
      run.evaluate h ((divisionGraph op bits).image ds 1) = .ok (.value (signExtend bits y)) := by
  intro run
  have hunlowered := (divisionGraph_built op bits).unlowered
  have hacyclic : h.Acyclic := hx.acyclic hunlowered.closed hunlowered.ordered.acyclic
  have hout : ∀ n, n ≠ 2 → n ∉ ds := fun n hn hmem ↦ hn (by simpa using hds hmem)
  have hresult : (divisionGraph op bits).image ds 3 = 3 :=
    Graph.image_of_not_mem (hout 3 (by decide))
  refine ⟨?_, ?_, ?_⟩
  · have hkept := hx.evaluate_kept (n := 3) hacyclic rfl (hout 3 (by decide)) run
    rw [hresult] at hkept
    rw [hkept]
    simp only [Run.demand, Demand.answer]
    cases run.evaluate h ((divisionGraph op bits).image ds 2) <;> rfl
  · exact hx.evaluate_kept (n := 0) hacyclic rfl (hout 0 (by decide)) run
  · exact hx.evaluate_kept (n := 1) hacyclic rfl (hout 1 (by decide)) run

theorem evaluate_divisionGraph (target : Target) (op : DivOp) (bits : Nat) (x y : Int64) :
    Run.evaluate ⟨target, [x, y]⟩ (divisionGraph op bits) 3 =
      .ok (target.divide op bits (signExtend bits x) (signExtend bits y)) := by
  let run : Run := ⟨target, [x, y]⟩
  obtain ⟨hresult, hx, hy⟩ := evaluate_unit (.refl { target } (divisionGraph op bits))
    (List.nil_subset _) target x y
  simp only [Graph.image_nil] at hresult hx hy
  rw [hresult, run.evaluate_divRem (divisionGraph_built op bits).acyclic rfl, hx, hy]
  exact run.bareDivide_of_values op bits _ _

theorem evaluate_guardedGraph (hrequired : l.required = true)
    (hwidth : l.target.supportsWidth bits = true) (target : Target) (op : DivOp) (x y : Int64) :
    Run.evaluate ⟨target, [x, y]⟩ (guardedGraph l op bits) 3 =
      .ok (if signExtend bits y = 0 then .fallback .divisionByZero
        else target.divide op bits (signExtend bits x) (signExtend bits y)) := by
  let run : Run := ⟨target, [x, y]⟩
  have hdecision := decision_divisionGraph_eq_rewrite hrequired hwidth op
  have hexpansion : Expansion l (divisionGraph op bits) [2] (guardedGraph l op bits) :=
    (Expansion.refl l _).guard List.not_mem_nil hdecision
  have hunlowered := (divisionGraph_built op bits).unlowered
  have hacyclic : (guardedGraph l op bits).Acyclic :=
    hexpansion.acyclic hunlowered.closed hunlowered.ordered.acyclic
  obtain ⟨hresult, hx, hy⟩ := evaluate_unit hexpansion (List.Subset.refl _) target x y
  rw [hresult, hexpansion.evaluate_image hacyclic List.mem_cons_self hdecision run, hx, hy]
  by_cases hzero : signExtend bits y = 0
  · rw [if_pos hzero, hzero]
    exact run.guardedDivide_of_zero op bits _
  · rw [if_neg hzero, Run.guardedDivide_of_ne_zero hzero]
    exact run.bareDivide_of_values op bits _ _

end Evaluate

end Inspect

end DivGuard
