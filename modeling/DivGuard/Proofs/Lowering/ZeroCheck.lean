import DivGuard.Proofs.Graph.Built
import DivGuard.Proofs.Lowering.Guarding
import DivGuard.Proofs.Lowering.Runs

/-!
# What the zero check misses

The guard compares the divisor with zero as a whole word, and the divide instruction looks at the
low bits that the width of the dividend keeps.  A wider divisor can have these bits zero without
being zero.  Such a divisor passes the guard, and the division behind it faults or gives zero.
-/

namespace DivGuard

variable {l : Lowering} {g h : Graph} {ds : List NodeId} {n : NodeId} {w : Workspace}

theorem Run.guardedDivide_eq_fallback_iff (run : Run) (op : DivOp) {bits : Nat} {v : Int64}
    (hv : signExtend bits v = 0) (r : Result) :
    run.guardedDivide op bits r (.ok (.value v)) = .ok (.fallback .divisionByZero) ↔
      v = 0 ∨ r = .ok (.fallback .divisionByZero) := by
  by_cases hzero : v = 0
  · simp [hzero, Run.guardedDivide_of_zero]
  · rw [Run.guardedDivide_of_ne_zero hzero]
    by_cases hr : IsValue r
    · obtain ⟨a, rfl⟩ := hr
      rw [Run.bareDivide_of_values, Target.divide_of_signExtend _ _ _ hv]
      cases run.target.arch.faultsOnZero <;> simp [hzero]
    · rw [Run.bareDivide_of_not_isValue hr]
      simp [hzero]

theorem Expansion.exists_of_safeDivRem (hx : Expansion l g ds h) (hn : g.slots.size ≤ n)
    {op : DivOp} {stamp : Stamp} {inputs : List NodeId}
    (hnode : h.node? n = some ⟨.safeDivRem op, stamp, inputs⟩) :
    ∃ d ∈ ds, ∃ key x y guard, l.decision g d = .rewrite key x y ∧ n = g.image ds d ∧
      op = key.op ∧ stamp = .anyInt key.width ∧ inputs = [g.image ds x, g.image ds y, guard] := by
  obtain ⟨d, hd, key, x, y, guard, hdecision, hn, hsafe⟩ := hx.division_of_new hn hnode rfl
  cases hsafe
  exact ⟨d, hd, key, x, y, guard, hdecision, hn, rfl, rfl, rfl⟩

/-- A lowered division whose divisor has the low bits of its width zero: it falls back just if the
whole word is zero or the dividend falls back.  Otherwise the division meets the zero. -/
theorem Lowering.fallback_iff_of_low_bits_zero (l : Lowering) (hbuilt : w.graph.Built) (run : Run)
    {s x y guard : NodeId} {op : DivOp} {stamp : Stamp} {width : Nat} {v : Int64}
    (hnode : (l.run w).2.graph.node? s = some ⟨.safeDivRem op, stamp, [x, y, guard]⟩)
    (hwidth : stamp.bits? = some width)
    (hdivisor : run.evaluate (l.run w).2.graph y = .ok (.value v))
    (hv : signExtend width v = 0) :
    (run.evaluate (l.run w).2.graph s = .ok (.fallback .divisionByZero) ↔
      v = 0 ∨ run.evaluate (l.run w).2.graph x = .ok (.fallback .divisionByZero)) ∧
    ∀ a, v ≠ 0 → run.evaluate (l.run w).2.graph x = .ok (.value a) →
      run.evaluate (l.run w).2.graph s =
        .ok (if run.target.arch.faultsOnZero then .trap else .value 0) := by
  have hclosed := hbuilt.unlowered.closed
  obtain ⟨ds, hx⟩ := l.run_expansion w hclosed
  have hacyclic := hx.acyclic hclosed hbuilt.acyclic
  have hnew : w.graph.slots.size ≤ s := by
    by_contra hold
    have hlt : s < w.graph.slots.size := Nat.lt_of_not_le hold
    rw [hx.kept s hlt] at hnode
    split at hnode
    · cases hnode
    · obtain ⟨old, hold, hmap⟩ := Option.map_eq_some_iff.mp hnode
      exact hbuilt.unlowered.bare s old op hold (congrArg Node.kind hmap)
  obtain ⟨d, hd, key, x', y', guard', hdecision, rfl, rfl, rfl, hinputs⟩ :=
    hx.exists_of_safeDivRem hnew hnode
  obtain ⟨rfl, rfl, -⟩ : x = _ ∧ y = _ ∧ guard = guard' := by simpa using hinputs
  have hkey : some key.width = some width := hwidth
  obtain rfl := Option.some.inj hkey
  rw [hx.evaluate_image hacyclic hd hdecision, hdivisor]
  refine ⟨Run.guardedDivide_eq_fallback_iff run key.op hv _, fun a hne ha ↦ ?_⟩
  rw [ha, Run.guardedDivide_of_ne_zero hne, Run.bareDivide_of_values,
    Target.divide_of_signExtend _ _ _ hv]

/-- The unsigned quotient of a narrow dividend by a wide divisor. -/
def Graph.mixed : Graph where
  name := "mixed"
  slots := #[some ⟨.parameter 0, .anyInt 32, []⟩, some ⟨.parameter 1, .anyInt 64, []⟩,
    some ⟨.divRem .udiv, .anyInt 32, [0, 1]⟩, some ⟨.result, .void, [2]⟩]

theorem Graph.mixed_built : Graph.mixed.Built := .division "mixed" .udiv 32 64

/-- A wide divisor with low bits zero passes the check, and the division gives zero. -/
theorem Lowering.mixed_passes_check :
    let l : Lowering := { target := .aarch64 }
    let run : Run := ⟨.aarch64, [7, 4294967296]⟩
    let lowered := (l.run { graph := .mixed }).2.graph
    Graph.mixed.Built ∧ l.required = true ∧ (l.run { graph := .mixed }).1 = .ok 1 ∧
      lowered.node? 7 = some ⟨.safeDivRem .udiv, .anyInt 32, [0, 1, 6]⟩ ∧
      run.evaluate lowered 1 = .ok (.value 4294967296) ∧ signExtend 32 4294967296 = 0 ∧
      run.evaluate lowered 7 = .ok (.value 0) := by
  refine ⟨Graph.mixed_built, ?_⟩
  decide +kernel

theorem Lowering.mixed_fallback :
    let l : Lowering := { target := .x86_64, force := true }
    let run : Run := ⟨.x86_64, [7, 0]⟩
    let lowered := (l.run { graph := .mixed }).2.graph
    lowered.node? 7 = some ⟨.safeDivRem .udiv, .anyInt 32, [0, 1, 6]⟩ ∧
      run.evaluate lowered 1 = .ok (.value 0) ∧ signExtend 32 0 = 0 ∧
      run.evaluate lowered 7 = .ok (.fallback .divisionByZero) := by
  intro l run lowered
  have hnode : lowered.node? 7 = some ⟨.safeDivRem .udiv, .anyInt 32, [0, 1, 6]⟩ := by
    decide +kernel
  have hdivisor : run.evaluate lowered 1 = .ok (.value 0) := by decide +kernel
  have hiff := fallback_iff_of_low_bits_zero (w := { graph := .mixed }) l Graph.mixed_built run
    hnode rfl hdivisor (signExtend_zero 32)
  exact ⟨hnode, hdivisor, signExtend_zero 32, hiff.1.mpr (.inl rfl)⟩

end DivGuard
