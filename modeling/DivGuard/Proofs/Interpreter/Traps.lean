import DivGuard.Proofs.Graph.Built
import DivGuard.Proofs.Interpreter.Spills

/-!
# What traps

A divide instruction traps just if the machine faults and the divisor is zero at the width or the
quotient leaves it; any other instruction folds its operands.  A node traps just if evaluating it
comes to an instruction that does, so nothing traps on a machine without faults.
-/

namespace DivGuard

theorem Divide.outcome_eq_trap_iff {q : Divide} {target : Target} :
    q.outcome target = .trap ↔ target.arch.faultsOnZero = true ∧ q.Faults := by
  constructor
  · intro htrap
    by_cases hzero : signExtend q.bits q.divisor = 0
    · rw [outcome_of_zero hzero] at htrap
      split at htrap
      · next hfaults => exact ⟨hfaults, .inl hzero⟩
      · cases htrap
    · by_contra hsound
      have hfits : target.arch.faultsOnZero = true → ¬q.Overflows := fun hfaults hover ↦
        hsound ⟨hfaults, .inr hover⟩
      obtain ⟨v, -, hvalue⟩ := outcome_of_fold hzero hfits
      cases hvalue.symm.trans htrap
  · rintro ⟨hfaults, h⟩
    exact outcome_of_faults hfaults h

namespace Demand

variable {eval : NodeId → Result} {x : NodeId} {xs : List NodeId} {next : List Int64 → Result}
  {r : Result}

theorem mem_of_mem_asked (h : x ∈ (askValues xs next).asked eval) : x ∈ xs := by
  induction xs generalizing next with
  | nil => cases h
  | cons y ys ih =>
      by_cases hy : IsValue (eval y)
      · rw [asked_askValues_of_value hy.eq] at h
        rcases List.mem_cons.mp h with rfl | hrest
        · exact List.mem_cons_self
        · exact List.mem_cons_of_mem y (ih hrest)
      · rw [asked_askValues_of_not_isValue hy] at h
        exact List.mem_singleton.mp h ▸ List.mem_cons_self

/-- A result that is not a value is that of an operand that is asked for, or all operands have
values and it comes of them. -/
theorem answer_askValues_eq_iff (hr : ¬IsValue r) :
    (askValues xs next).answer eval = r ↔
      (∃ x ∈ (askValues xs next).asked eval, eval x = r) ∨
        (∀ x ∈ xs, IsValue (eval x)) ∧ next (xs.map fun x ↦ wordOf (eval x)) = r := by
  induction xs generalizing next with
  | nil => simp [askValues, asked, answer]
  | cons x xs ih =>
      by_cases hx : IsValue (eval x)
      · have hne : eval x ≠ r := fun heq ↦ hr (heq ▸ hx)
        rw [asked_askValues_of_value hx.eq, askValues, answer_askValue_of_value hx.eq, ih]
        simp [hx, hne]
      · rw [asked_askValues_of_not_isValue hx, askValues, answer_askValue_of_not_isValue hx]
        simp [hx]

end Demand

namespace Run

variable {run : Run} {g : Graph} {node : Node}

/-- Of all operations on words only divide instructions trap. -/
theorem compute_eq_trap_iff (run : Run) (id : NodeId) (node : Node) (values : List Int64) :
    run.compute id node values = .ok .trap ↔ run.target.arch.faultsOnZero = true ∧
      ∃ q, node.divide? run.target.wordBits values = some q ∧ q.Faults := by
  cases hdivide : node.divide? run.target.wordBits values with
  | none =>
      -- What does not divide is the same on a machine without faults.
      have hne := (run.on .aarch64).compute_ne_trap rfl id node values
      rw [run.compute_on .aarch64, hdivide] at hne
      simp [hne]
  | some q =>
      have hcompute := run.compute_on run.target.arch id node values
      rw [hdivide] at hcompute
      have houtcome : run.compute id node values = .ok (q.outcome run.target) := hcompute
      simp [houtcome, Divide.outcome_eq_trap_iff]

theorem evaluate_eq_trap_iff (run : Run) (hacyclic : g.Acyclic) (n : NodeId) :
    run.evaluate g n = .ok .trap ↔
      run.target.arch.faultsOnZero = true ∧ run.Faulty g n := by
  induction n using hacyclic.induction with
  | step n ih =>
      cases hnode : g.node? n with
      | none => simp [run.evaluate_of_dead hnode, not_faulty_of_dead hnode]
      | some node =>
          rw [run.evaluate_of_node? hacyclic hnode, run.faulty_iff_of_node? hnode]
          by_cases hshape : node.WellShaped
          · rw [run.demand_of_wellShaped n hshape,
              Demand.answer_askValues_eq_iff not_isValue_trap, compute_eq_trap_iff]
            have hinputs : ∀ m, m ∈ (Demand.askValues node.operands (run.compute n node)).asked
                (run.evaluate g) → (run.evaluate g m = .ok .trap ↔
                  run.target.arch.faultsOnZero = true ∧ run.Faulty g m) := by
              intro m hm
              have hinput : m ∈ node.inputs := Node.mem_operands.mp (Demand.mem_of_mem_asked hm)
              exact ih m ⟨node, hnode, hinput⟩
            rw [exists_congr fun m ↦ and_congr_right (hinputs m), and_or_left]
            simp only [and_left_comm, exists_and_left]
          · rw [run.demand_of_not_wellShaped n hshape]
            refine iff_of_false (by simp [Demand.answer]) ?_
            rintro ⟨-, ⟨m, hm, -⟩ | ⟨-, q, hq, -⟩⟩
            · cases hm
            · exact hshape (Node.wellShaped_of_divide? hq)

theorem evaluate_ne_trap (run : Run) (h : run.target.arch.faultsOnZero = false)
    (hacyclic : g.Acyclic) (n : NodeId) : run.evaluate g n ≠ .ok .trap := by
  intro htrap
  have hfaults : run.target.arch.faultsOnZero = true :=
    ((run.evaluate_eq_trap_iff hacyclic n).mp htrap).1
  simp [h] at hfaults

end Run

/-- A divide instruction traps just if it faults, or else gives zero for a divisor of zero, or else
folds its operands.  A node traps just if it comes to an instruction that does; on AArch64 none do. -/
theorem Target.trap_iff_faults (target : Target) :
    (∀ q : Divide,
      (q.outcome target = .trap ↔ target.arch.faultsOnZero = true ∧ q.Faults) ∧
      (target.arch.faultsOnZero = false → signExtend q.bits q.divisor = 0 →
        q.outcome target = .value 0) ∧
      (signExtend q.bits q.divisor ≠ 0 → (target.arch.faultsOnZero = true → ¬q.Overflows) →
        ∃ v, q.op.fold q.bits q.dividend q.divisor = some v ∧ q.outcome target = .value v)) ∧
    ∀ (args : List Int64) (g : Graph), g.Acyclic → ∀ n,
      (Run.evaluate ⟨target, args⟩ g n = .ok .trap ↔
        target.arch.faultsOnZero = true ∧ Run.Faulty ⟨target, args⟩ g n) ∧
      (target.arch = .aarch64 → Run.evaluate ⟨target, args⟩ g n ≠ .ok .trap) := by
  refine ⟨fun q ↦ ⟨Divide.outcome_eq_trap_iff, fun hfree hzero ↦ ?_, Divide.outcome_of_fold⟩,
    fun args g hacyclic n ↦ ?_⟩
  · rw [Divide.outcome_of_zero hzero, hfree]
    rfl
  · refine ⟨Run.evaluate_eq_trap_iff _ hacyclic n, fun harch ↦ ?_⟩
    exact Run.evaluate_ne_trap _ (by simp [harch, Arch.faultsOnZero]) hacyclic n

/-- The operands are cut to the width before they are looked at: 128 over 255 is the least octet
over `-1`, and 256 is no divisor. -/
theorem Target.trap_iff_faults_octets :
    let least : Divide := ⟨.sdiv, 8, 128, 255⟩
    let zero : Divide := ⟨.udiv, 8, 5, 256⟩
    let args : List Int64 := [5, 256]
    (x86_64.arch.faultsOnZero = true ∧ least.Faults ∧ least.outcome .x86_64 = .trap) ∧
      (signExtend 8 255 ≠ 0 ∧ aarch64.arch.faultsOnZero = false ∧
        ∃ v, DivOp.sdiv.fold 8 128 255 = some v ∧ least.outcome .aarch64 = .value v) ∧
      (signExtend 8 256 = 0 ∧ zero.outcome .aarch64 = .value 0) ∧
      (Graph.octets.Acyclic ∧ Run.Faulty ⟨.x86_64, args⟩ .octets 3 ∧
        Run.evaluate ⟨.x86_64, args⟩ .octets 3 = .ok .trap) ∧
      aarch64.arch = .aarch64 ∧ Run.evaluate ⟨.aarch64, args⟩ .octets 3 ≠ .ok .trap := by
  intro least zero args
  have hleast : least.Faults := .inr (by decide)
  have hdivisor : signExtend 8 255 ≠ 0 := by decide
  have hzero : signExtend 8 256 = 0 := by decide
  have hacyclic : Graph.octets.Acyclic := Graph.octets_built.acyclic
  have hfaulty : Run.Faulty ⟨.x86_64, args⟩ .octets 3 :=
    ⟨⟨.udiv, 8, 5, 0⟩, ⟨2, .single (by decide +kernel), by decide +kernel⟩, .inl (by decide)⟩
  obtain ⟨x86, x86Graph⟩ := trap_iff_faults .x86_64
  obtain ⟨arm, armGraph⟩ := trap_iff_faults .aarch64
  exact ⟨⟨rfl, hleast, (x86 least).1.mpr ⟨rfl, hleast⟩⟩,
    ⟨hdivisor, rfl, (arm least).2.2 hdivisor (by decide)⟩, ⟨hzero, (arm zero).2.1 rfl hzero⟩,
    ⟨hacyclic, hfaulty, (x86Graph args _ hacyclic 3).1.mpr ⟨rfl, hfaulty⟩⟩, rfl,
    (armGraph args _ hacyclic 3).2 rfl⟩

end DivGuard
