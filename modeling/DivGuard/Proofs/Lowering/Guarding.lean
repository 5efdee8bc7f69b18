import DivGuard.Proofs.Integer.Division
import DivGuard.Proofs.Interpreter.Unfolding
import DivGuard.Proofs.Lowering.Soundness

/-!
# What a guarded division evaluates to

The outcome of a fragment in a lowered graph is a function of the outcomes of its two operands.  The
divisor is evaluated first and compared with zero as a whole word; only then comes the dividend.  An
unchecked division asks for them the other way round and leaves a divisor of zero to the target.
-/

namespace DivGuard

variable {l : Lowering} {g h : Graph} {ds : List NodeId} {d x y : NodeId} {key : Template.Key}

namespace Run

/-- An unchecked division of two operands with these outcomes. -/
def bareDivide (run : Run) (op : DivOp) (bits : Nat) (dividend divisor : Result) : Result :=
  match dividend with
  | .ok (.value a) =>
    match divisor with
    | .ok (.value b) => .ok (run.target.divide op bits a b)
    | stop => stop
  | stop => stop

/-- A guarded division of two operands with these outcomes. -/
def guardedDivide (run : Run) (op : DivOp) (bits : Nat) (dividend divisor : Result) : Result :=
  match divisor with
  | .ok (.value b) =>
    if b = 0 then .ok (.fallback .divisionByZero)
    else run.bareDivide op bits dividend divisor
  | stop => stop

variable {run : Run} {op : DivOp} {bits : Nat} {r r' : Result}

theorem bareDivide_of_values (run : Run) (op : DivOp) (bits : Nat) (a b : Int64) :
    run.bareDivide op bits (.ok (.value a)) (.ok (.value b)) =
      .ok (run.target.divide op bits a b) := rfl

theorem bareDivide_of_not_isValue (hr : ¬IsValue r) : run.bareDivide op bits r r' = r := by
  unfold bareDivide
  split
  · next a => exact absurd (isValue_value a) hr
  · rfl

theorem bareDivide_value_of_not_isValue (a : Int64) (hr' : ¬IsValue r') :
    run.bareDivide op bits (.ok (.value a)) r' = r' := by
  unfold bareDivide
  dsimp only
  split
  · next b => exact absurd (isValue_value b) hr'
  · rfl

theorem guardedDivide_of_not_isValue (hr' : ¬IsValue r') :
    run.guardedDivide op bits r r' = r' := by
  unfold guardedDivide
  split
  · next b => exact absurd (isValue_value b) hr'
  · rfl

theorem guardedDivide_of_zero (run : Run) (op : DivOp) (bits : Nat) (r : Result) :
    run.guardedDivide op bits r (.ok (.value 0)) = .ok (.fallback .divisionByZero) := rfl

theorem guardedDivide_of_ne_zero {b : Int64} (hb : b ≠ 0) :
    run.guardedDivide op bits r (.ok (.value b)) =
      run.bareDivide op bits r (.ok (.value b)) := if_neg hb

/-! ## Nodes of the two kinds -/

theorem evaluate_divRem (run : Run) (hacyclic : g.Acyclic) {stamp : Stamp}
    (hnode : g.node? d = some ⟨.divRem op, stamp, [x, y]⟩) :
    run.evaluate g d = run.bareDivide op (stamp.bits?.getD run.target.wordBits)
      (run.evaluate g x) (run.evaluate g y) := by
  have hdemand : run.evaluate g d = (Demand.askValue x fun a ↦ .askValue y fun b ↦
      .done (.ok (run.target.divide op (stamp.bits?.getD run.target.wordBits) a b))).answer
        (run.evaluate g) := run.evaluate_of_node? hacyclic hnode
  rw [hdemand]
  by_cases hx : IsValue (run.evaluate g x)
  · rw [Demand.answer_askValue_of_value hx.eq]
    by_cases hy : IsValue (run.evaluate g y)
    · rw [Demand.answer_askValue_of_value hy.eq, hx.eq, hy.eq]
      rfl
    · rw [Demand.answer_askValue_of_not_isValue hy, hx.eq, bareDivide_value_of_not_isValue _ hy]
  · rw [Demand.answer_askValue_of_not_isValue hx, bareDivide_of_not_isValue hx]

theorem evaluate_safeDivRem (run : Run) (hacyclic : g.Acyclic) {stamp : Stamp} {guard : NodeId}
    (hnode : g.node? d = some ⟨.safeDivRem op, stamp, [x, y, guard]⟩) :
    run.evaluate g d = (Demand.askValue guard fun _ ↦ .askValue x fun a ↦ .askValue y fun b ↦
      .done (.ok (run.target.divide op (stamp.bits?.getD run.target.wordBits) a b))).answer
        (run.evaluate g) := run.evaluate_of_node? hacyclic hnode

end Run

namespace Expansion

variable (hx : Expansion l g ds h) (hacyclic : h.Acyclic)

include hx hacyclic

/-- The guard passes on what the divisor has instead of a value. -/
theorem evaluate_guard {i : Nat} (hi : ds[i]? = some d)
    (hdecision : l.decision g d = .rewrite key x y) (run : Run) :
    run.evaluate h (g.slots.size + 4 * i + 2) =
      match run.evaluate h (g.image ds y) with
      | .ok (.value b) => .ok (if b = 0 then .fallback .divisionByZero else .value 0)
      | stop => stop := by
  obtain ⟨hzero, hequals, hguard, -⟩ := hx.fragment hi hdecision
  set base := g.slots.size + 4 * i
  set y' := g.image ds y
  have hzeroValue : run.evaluate h base = .ok (.value 0) := by
    rw [run.evaluate_of_node? hacyclic hzero]
    simp [Run.demand, Demand.answer, Constant.ofInt, Constant.word]
  have hequalsAnswer : run.evaluate h (base + 1) = (Demand.askValue y' fun a ↦
      .askValue base fun b ↦ .done (.ok (.value (if a = b then 1 else 0)))).answer
        (run.evaluate h) := run.evaluate_of_node? hacyclic hequals
  have hguardAnswer : run.evaluate h (base + 2) = (Demand.askValue (base + 1) fun v ↦
      .done (.ok (if v = 0 then .value 0 else .fallback (l.policy .divisionByZero).reason))).answer
        (run.evaluate h) := run.evaluate_of_node? hacyclic hguard
  by_cases hy : IsValue (run.evaluate h y')
  · rw [Demand.answer_askValue_of_value hy.eq, Demand.answer_askValue_of_value hzeroValue]
      at hequalsAnswer
    rw [hguardAnswer, Demand.answer_askValue_of_value hequalsAnswer, hy.eq]
    by_cases hb : wordOf (run.evaluate h y') = 0
    · simp [hb, Demand.answer]
    · simp [hb, Demand.answer]
  · have hequalsStop : run.evaluate h (base + 1) = run.evaluate h y' := by
      rw [hequalsAnswer, Demand.answer_askValue_of_not_isValue hy]
    rw [hguardAnswer, Demand.answer_askValue_of_not_isValue (hequalsStop ▸ hy), hequalsStop]
    split
    · next b hb => exact absurd ⟨b, hb⟩ hy
    · rfl

theorem evaluate_image (hd : d ∈ ds) (hdecision : l.decision g d = .rewrite key x y) (run : Run) :
    run.evaluate h (g.image ds d) = run.guardedDivide key.op key.width
      (run.evaluate h (g.image ds x)) (run.evaluate h (g.image ds y)) := by
  obtain ⟨i, hi⟩ := List.getElem?_of_mem hd
  have hguard := hx.evaluate_guard hacyclic hi hdecision run
  obtain ⟨-, -, -, hsafe⟩ := hx.fragment hi hdecision
  rw [Graph.image_of_getElem? hx.nodup hi, run.evaluate_safeDivRem hacyclic hsafe]
  set x' := g.image ds x
  set y' := g.image ds y
  by_cases hy : IsValue (run.evaluate h y')
  · by_cases hb : wordOf (run.evaluate h y') = 0
    · have hfallback : run.evaluate h (g.slots.size + 4 * i + 2) =
          .ok (.fallback .divisionByZero) := by
        rw [hguard, hy.eq]
        simp [hb]
      have hstop : ¬IsValue (run.evaluate h (g.slots.size + 4 * i + 2)) := by simp [hfallback]
      rw [Demand.answer_askValue_of_not_isValue hstop, hfallback, hy.eq, hb]
      rfl
    · have hpass : run.evaluate h (g.slots.size + 4 * i + 2) = .ok (.value 0) := by
        rw [hguard, hy.eq]
        simp [hb]
      rw [Demand.answer_askValue_of_value hpass, hy.eq, Run.guardedDivide_of_ne_zero hb]
      by_cases hxv : IsValue (run.evaluate h x')
      · rw [Demand.answer_askValue_of_value hxv.eq, Demand.answer_askValue_of_value hy.eq, hxv.eq]
        rfl
      · rw [Demand.answer_askValue_of_not_isValue hxv, Run.bareDivide_of_not_isValue hxv]
  · have hguardStop : run.evaluate h (g.slots.size + 4 * i + 2) = run.evaluate h y' := by
      rw [hguard]
      split
      · next b hb => exact absurd ⟨b, hb⟩ hy
      · rfl
    rw [Demand.answer_askValue_of_not_isValue (hguardStop ▸ hy), hguardStop,
      Run.guardedDivide_of_not_isValue hy]

end Expansion

end DivGuard
