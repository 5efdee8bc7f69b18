import DivGuard.Proofs.Interpreter.Unfolding
import Mathlib.Tactic.IntervalCases

/-!
# What evaluation fails on

An error is always about one node, by what is wrong with that node alone: it is gone, it does not
have the inputs that its kind takes, or it is a parameter without an argument.  Evaluation reports
the first such node that it comes to.  A fallback or a trap may end it before it comes to one, but a
value is only found where all nodes below are in order.
-/

namespace DivGuard

variable {run : Run} {g : Graph} {m n : NodeId} {node : Node} {e : UnitError}

namespace Run

/-- The node is live and has as many inputs as its kind takes, and there is an argument for it if it
is a parameter. -/
def Ready (run : Run) (g : Graph) (n : NodeId) : Prop :=
  ∃ node, g.node? n = some node ∧ node.WellShaped ∧
    ∀ index, node.kind = .parameter index → index < run.args.length

/-- What is wrong with a node itself, by the error that says so. -/
inductive Defect (run : Run) (g : Graph) (n : NodeId) : UnitError → Prop
  | dead (hnode : g.node? n = none) : Defect run g n (.invalidNode n)
  | shape {node : Node} (hnode : g.node? n = some node) (hshape : ¬node.WellShaped) :
      Defect run g n (.invalidNode n)
  | argument {node : Node} {index : Nat} (hnode : g.node? n = some node) (hshape : node.WellShaped)
      (hkind : node.kind = .parameter index) (hmissing : run.args.length ≤ index) :
      Defect run g n (.missingArgument index run.args.length)

theorem Ready.not_defect (h : run.Ready g n) (e : UnitError) : ¬run.Defect g n e := by
  obtain ⟨node, hnode, hshape, hargument⟩ := h
  rintro (hdead | ⟨hfound, hnot⟩ | ⟨hfound, -, hkind, hmissing⟩)
  · cases hdead.symm.trans hnode
  · cases hfound.symm.trans hnode
    exact hnot hshape
  · cases hfound.symm.trans hnode
    exact Nat.not_lt.mpr hmissing (hargument _ hkind)

theorem ready_of_not_defect (h : ∀ e, ¬run.Defect g n e) : run.Ready g n := by
  cases hnode : g.node? n with
  | none => exact absurd (.dead hnode) (h _)
  | some node =>
      have hshape : node.WellShaped := by
        by_contra hnot
        exact h _ (.shape hnode hnot)
      refine ⟨node, hnode, hshape, fun index hkind ↦ ?_⟩
      by_contra hmissing
      exact h _ (.argument hnode hshape hkind (Nat.le_of_not_lt hmissing))

/-! ## A defect is reported -/

theorem argument_of_length_le {index : Nat} (h : run.args.length ≤ index) (bits : Nat) :
    run.argument index bits = .error (.missingArgument index run.args.length) := by
  simp only [argument, List.getElem?_eq_none h]

theorem Defect.evaluate_eq (hacyclic : g.Acyclic) (h : run.Defect g n e) :
    run.evaluate g n = .error e := by
  cases h with
  | dead hnode => exact run.evaluate_of_dead hnode
  | shape hnode hshape =>
      rw [run.evaluate_of_node? hacyclic hnode, run.demand_of_not_wellShaped n hshape]
      rfl
  | @argument node index hnode hshape hkind hmissing =>
      obtain ⟨kind, stamp, inputs⟩ := node
      obtain rfl : kind = .parameter index := hkind
      obtain rfl : inputs = [] := List.length_eq_zero_iff.mp hshape
      rw [run.evaluate_of_node? hacyclic hnode]
      exact argument_of_length_le hmissing _

/-! ## An error is that of a defect -/

theorem defect_of_compute_eq_error (hnode : g.node? n = some node) (hshape : node.WellShaped)
    {values : List Int64} (hlength : values.length = node.inputs.length)
    (h : run.compute n node values = .error e) : run.Defect g n e := by
  have hvalues : values.length = node.kind.arity := hlength.trans hshape
  obtain ⟨kind, stamp, inputs⟩ := node
  cases kind with
  | parameter index =>
      obtain rfl := List.length_eq_zero_iff.mp hvalues
      by_cases hgiven : index < run.args.length
      · simp [compute, argument, hgiven] at h
      · have hmissing : run.args.length ≤ index := Nat.le_of_not_lt hgiven
        cases (argument_of_length_le hmissing _).symm.trans h
        exact .argument hnode hshape rfl hmissing
  | constant c =>
      obtain rfl := List.length_eq_zero_iff.mp hvalues
      cases h
  | guard request =>
      obtain ⟨v, rfl⟩ := List.length_eq_one_iff.mp hvalues
      cases h
  | result =>
      obtain ⟨v, rfl⟩ := List.length_eq_one_iff.mp hvalues
      cases h
  | equals | divRem op =>
      obtain ⟨a, b, rfl⟩ := List.length_eq_two.mp hvalues
      cases h
  | safeDivRem op =>
      obtain ⟨v, a, b, rfl⟩ := List.length_eq_three.mp hvalues
      cases h

theorem exists_defect_of_error (hacyclic : g.Acyclic) (h : run.evaluate g n = .error e) :
    ∃ m, g.Reaches n m ∧ run.Defect g m e := by
  induction n using hacyclic.induction with
  | step n ih =>
      cases hnode : g.node? n with
      | none =>
          cases (run.evaluate_of_dead hnode).symm.trans h
          exact ⟨n, .refl, .dead hnode⟩
      | some node =>
          rw [run.evaluate_of_node? hacyclic hnode] at h
          rcases Demand.answer_demand_cases run n node (run.evaluate g) with
            ⟨-, hshape, heq⟩ | ⟨input, hinput, -, heq⟩ | ⟨hshape, heq⟩
          · refine ⟨n, .refl, defect_of_compute_eq_error hnode hshape ?_ (heq.symm.trans h)⟩
            simp
          · have huse : g.Uses n input := ⟨node, hnode, hinput⟩
            obtain ⟨m, hreach, hdefect⟩ := ih input huse (heq.symm.trans h)
            exact ⟨m, .head huse hreach, hdefect⟩
          · cases heq.symm.trans h
            exact ⟨n, .refl, .shape hnode hshape⟩

/-! ## A value needs values -/

theorem isValue_of_uses (hacyclic : g.Acyclic) (h : IsValue (run.evaluate g n))
    (huse : g.Uses n m) : IsValue (run.evaluate g m) := by
  obtain ⟨node, hnode, hinput⟩ := huse
  rw [run.evaluate_of_node? hacyclic hnode] at h
  exact Demand.inputs_of_isValue h m hinput

theorem isValue_of_reaches (hacyclic : g.Acyclic) (h : IsValue (run.evaluate g n))
    (hreach : g.Reaches n m) : IsValue (run.evaluate g m) := by
  induction hreach with
  | refl => exact h
  | tail _ huse ih => exact isValue_of_uses hacyclic ih huse

theorem ready_of_isValue (hacyclic : g.Acyclic) (h : IsValue (run.evaluate g n)) :
    run.Ready g n := by
  apply ready_of_not_defect
  intro e hdefect
  rw [hdefect.evaluate_eq hacyclic] at h
  exact not_isValue_error e h

/-- Evaluation comes to an outcome if the node and all that it depends on are ready.  Where it comes
to a value all of them are ready and have values.  Its errors are those of nodes that are not, and
such a node always ends in its own. -/
theorem evaluate_fails_on_defects (run : Run) (hacyclic : g.Acyclic) (n : NodeId) :
    ((∀ m, g.Reaches n m → run.Ready g m) → ∃ outcome, run.evaluate g n = .ok outcome) ∧
    (∀ v, run.evaluate g n = .ok (.value v) → ∀ m, g.Reaches n m →
      run.Ready g m ∧ ∃ u, run.evaluate g m = .ok (.value u)) ∧
    (∀ e, run.evaluate g n = .error e → ∃ m, g.Reaches n m ∧ run.Defect g m e) ∧
    ∀ e, run.Defect g n e → run.evaluate g n = .error e := by
  refine ⟨fun hready ↦ ?_, fun v hvalue m hreach ↦ ?_, fun e ↦ exists_defect_of_error hacyclic,
    fun e hdefect ↦ hdefect.evaluate_eq hacyclic⟩
  · cases h : run.evaluate g n with
    | ok outcome => exact ⟨outcome, rfl⟩
    | error e =>
        obtain ⟨m, hreach, hdefect⟩ := exists_defect_of_error hacyclic h
        exact absurd hdefect ((hready m hreach).not_defect e)
  · have hm : IsValue (run.evaluate g m) := isValue_of_reaches hacyclic ⟨v, hvalue⟩ hreach
    exact ⟨ready_of_isValue hacyclic hm, hm⟩

end Run

/-- A guarded division whose dividend, a division too, lacks its divisor. -/
def Graph.sheltered : Graph where
  name := "sheltered"
  slots := #[some ⟨.parameter 0, .anyInt 32, []⟩, some ⟨.constant (.ofInt 32 0), .oneInt 32 0, []⟩,
    some ⟨.equals, .int (.between 32 0 1), [0, 1]⟩,
    some ⟨.guard ⟨.divisionByZero, .keepCode⟩, .void, [2]⟩,
    some ⟨.divRem .sdiv, .anyInt 32, [0]⟩, some ⟨.safeDivRem .sdiv, .anyInt 32, [4, 0, 3]⟩]

/-- The guard hides the defect behind it as long as it falls back. -/
theorem Run.evaluate_fails_on_defects_sheltered :
    let g : Graph := .sheltered
    let run : Run := ⟨.aarch64, [7]⟩
    g.Acyclic ∧
      ((∀ m, g.Reaches 3 m → run.Ready g m) ∧ ∃ outcome, run.evaluate g 3 = .ok outcome) ∧
      (run.evaluate g 3 = .ok (.value 0) ∧ ∀ m, g.Reaches 3 m →
        run.Ready g m ∧ ∃ u, run.evaluate g m = .ok (.value u)) ∧
      (run.evaluate g 5 = .error (.invalidNode 4) ∧
        ∃ m, g.Reaches 5 m ∧ run.Defect g m (.invalidNode 4)) ∧
      (Run.evaluate ⟨.aarch64, []⟩ g 5 = .error (.missingArgument 0 0) ∧
        ∃ m, g.Reaches 5 m ∧ Run.Defect ⟨.aarch64, []⟩ g m (.missingArgument 0 0)) ∧
      (run.Defect g 4 (.invalidNode 4) ∧ run.evaluate g 4 = .error (.invalidNode 4)) ∧
      Run.evaluate ⟨.aarch64, [0]⟩ g 5 = .ok (.fallback .divisionByZero) := by
  intro g run
  have hordered : g.Ordered := by decide
  have hready : ∀ m, g.Reaches 3 m → run.Ready g m := by
    intro m hreach
    have hle : m ≤ 3 := hordered.le_of_reaches hreach
    interval_cases m
    · exact ⟨_, rfl, rfl, by rintro index ⟨⟩; decide⟩
    all_goals exact ⟨_, rfl, rfl, by rintro index ⟨⟩⟩
  have hvalue : run.evaluate g 3 = .ok (.value 0) := by decide +kernel
  have hshape : run.evaluate g 5 = .error (.invalidNode 4) := by decide +kernel
  have hmissing : Run.evaluate ⟨.aarch64, []⟩ g 5 = .error (.missingArgument 0 0) := by
    decide +kernel
  have hdefect : run.Defect g 4 (.invalidNode 4) := .shape rfl (by decide)
  obtain ⟨hok, hvalues, -⟩ := run.evaluate_fails_on_defects hordered.acyclic 3
  obtain ⟨-, -, herror, -⟩ := run.evaluate_fails_on_defects hordered.acyclic 5
  obtain ⟨-, -, herror', -⟩ := Run.evaluate_fails_on_defects ⟨.aarch64, []⟩ hordered.acyclic 5
  obtain ⟨-, -, -, hown⟩ := run.evaluate_fails_on_defects hordered.acyclic 4
  exact ⟨hordered.acyclic, ⟨hready, hok hready⟩, ⟨hvalue, hvalues 0 hvalue⟩,
    ⟨hshape, herror _ hshape⟩, ⟨hmissing, herror' _ hmissing⟩, ⟨hdefect, hown _ hdefect⟩,
    by decide +kernel⟩

end DivGuard
