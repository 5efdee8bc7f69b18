import DivGuard.Proofs.Interpreter.Unfolding

/-!
# Where the machines differ

The machines differ only in the divide instructions that fault on one of them: those by zero, and
the one signed quotient that leaves its width.  A node that comes to none of these has the same
outcome on both; a node that comes to one traps on the machine that faults.  Which instructions a
node comes to is read off the other machine, as only that one goes on after them.
-/

namespace DivGuard

open Relation

/-- A divide instruction with its operands. -/
structure Divide where
  op : DivOp
  bits : Nat
  dividend : Int64
  divisor : Int64
  deriving DecidableEq, Repr

namespace Divide

variable {q : Divide} {target : Target}

def outcome (q : Divide) (target : Target) : Outcome :=
  target.divide q.op q.bits q.dividend q.divisor

/-- The least integer of the width is divided by `-1`. -/
def Overflows (q : Divide) : Prop :=
  q.op.isSigned = true ∧ signExtend q.bits q.dividend = leastInt q.bits ∧
    signExtend q.bits q.divisor = -1

instance (q : Divide) : Decidable q.Overflows := inferInstanceAs (Decidable (_ ∧ _ ∧ _))

def Faults (q : Divide) : Prop := signExtend q.bits q.divisor = 0 ∨ q.Overflows

theorem outcome_of_faults (htarget : target.arch.faultsOnZero = true) (h : q.Faults) :
    q.outcome target = .trap := by
  unfold outcome Target.divide
  rcases h with hzero | ⟨hsigned, hleast, hone⟩
  · rw [if_pos hzero, if_pos htarget]
  · simp [htarget, hsigned, hleast, hone]

theorem outcome_of_not_faults (target target' : Target) (h : ¬q.Faults) :
    q.outcome target = q.outcome target' := by
  have hzero : signExtend q.bits q.divisor ≠ 0 := fun hzero ↦ h (.inl hzero)
  have hfits : ∀ t : Target, ¬(t.arch.faultsOnZero && q.op.isSigned &&
      signExtend q.bits q.dividend == leastInt q.bits &&
        signExtend q.bits q.divisor == -1) = true := by
    intro t hover
    simp only [Bool.and_eq_true, beq_iff_eq] at hover
    exact h (.inr ⟨hover.1.1.2, hover.1.2, hover.2⟩)
  unfold outcome Target.divide
  rw [if_neg hzero, if_neg hzero, if_neg (hfits target), if_neg (hfits target')]

theorem outcome_ne_fallback (q : Divide) (target : Target) (reason : Fallback.Reason) :
    q.outcome target ≠ .fallback reason := by
  unfold outcome Target.divide
  split
  · split <;> simp
  · split
    · simp
    · split <;> simp

end Divide

/-- Outcomes of which the first is a trap where there is a fault, and which are the same
elsewhere. -/
structure SameUnless (fault : Prop) (r r' : Result) : Prop where
  traps : fault → r = .ok .trap
  agrees : ¬fault → r = r'

theorem SameUnless.of_iff {fault fault' : Prop} {r r' : Result} (h : SameUnless fault r r')
    (hiff : fault ↔ fault') : SameUnless fault' r r' := propext hiff ▸ h

theorem SameUnless.of_eq {fault : Prop} {r r' : Result} (heq : r = r') (hnot : ¬fault) :
    SameUnless fault r r' := ⟨fun h ↦ absurd h hnot, fun _ ↦ heq⟩

namespace Demand

variable {eval eval' : NodeId → Result} {x : NodeId} {xs : List NodeId}
  {next next' : List Int64 → Result}

/-- The operands that are asked for in turn. -/
def asked (eval : NodeId → Result) : Demand → List NodeId
  | .done _ => []
  | .ask operand next =>
    operand :: match eval operand with
      | .error _ => []
      | .ok outcome => (next outcome).asked eval

theorem asked_askValues_of_value {v : Int64} (h : eval x = .ok (.value v)) :
    (askValues (x :: xs) next).asked eval =
      x :: (askValues xs fun vs ↦ next (v :: vs)).asked eval := by
  simp only [askValues, askValue, asked, h]

theorem asked_askValues_of_not_isValue (h : ¬IsValue (eval x)) :
    (askValues (x :: xs) next).asked eval = [x] := by
  simp only [askValues, askValue, asked]
  cases hx : eval x with
  | error e => rfl
  | ok outcome =>
      cases outcome with
      | value v => exact absurd ⟨v, hx⟩ h
      | fallback reason => rfl
      | trap => rfl

/-- What is found for operands is the same unless one that is asked for is faulty, or all of them
have values and there is a fault in what comes next. -/
theorem sameUnless_askValues {faulty : NodeId → Prop} {fault : List Int64 → Prop}
    (hxs : ∀ x ∈ xs, SameUnless (faulty x) (eval x) (eval' x))
    (hnext : ∀ values, SameUnless (fault values) (next values) (next' values)) :
    SameUnless ((∃ x ∈ (askValues xs next').asked eval', faulty x) ∨
        (∀ x ∈ xs, IsValue (eval' x)) ∧ fault (xs.map fun x ↦ wordOf (eval' x)))
      ((askValues xs next).answer eval) ((askValues xs next').answer eval') := by
  induction xs generalizing next next' fault with
  | nil => exact (hnext []).of_iff (by simp [askValues, asked])
  | cons x xs ih =>
      have hx := hxs x List.mem_cons_self
      by_cases hfaulty : faulty x
      · have htrap : ¬IsValue (eval x) := by simp [hx.traps hfaulty]
        have hmem : x ∈ (askValues (x :: xs) next').asked eval' := by
          simp [askValues, askValue, asked]
        refine ⟨fun _ ↦ ?_, fun hnot ↦ absurd (.inl ⟨x, hmem, hfaulty⟩) hnot⟩
        rw [askValues, answer_askValue_of_not_isValue htrap, hx.traps hfaulty]
      · have heval : eval x = eval' x := hx.agrees hfaulty
        by_cases hvalue : IsValue (eval' x)
        · have hrest := ih (fun y hy ↦ hxs y (List.mem_cons_of_mem x hy))
            fun values ↦ hnext (wordOf (eval' x) :: values)
          rw [asked_askValues_of_value hvalue.eq, askValues, askValues,
            answer_askValue_of_value (heval.trans hvalue.eq),
            answer_askValue_of_value hvalue.eq]
          exact hrest.of_iff (by simp [hfaulty, hvalue])
        · rw [asked_askValues_of_not_isValue hvalue, askValues, askValues,
            answer_askValue_of_not_isValue hvalue,
            answer_askValue_of_not_isValue (heval ▸ hvalue)]
          exact .of_eq heval (by simp [hfaulty, hvalue])

end Demand

/-- The divide instruction of a node whose operands have these values. -/
def Node.divide? (node : Node) (wordBits : Nat) (values : List Int64) : Option Divide :=
  let bits := node.stamp.bits?.getD wordBits
  match node.kind, values with
  | .divRem op, [a, b] => some ⟨op, bits, a, b⟩
  | .safeDivRem op, [_, a, b] => some ⟨op, bits, a, b⟩
  | _, _ => none

/-- Only divisions divide, and they take as many values as they have inputs. -/
theorem Node.of_divide?_eq_some {node : Node} {wordBits : Nat} {values : List Int64} {q : Divide}
    (h : node.divide? wordBits values = some q) :
    node.kind.isDivision = true ∧ values.length = node.kind.arity := by
  obtain ⟨kind, stamp, inputs⟩ := node
  cases kind with
  | divRem op =>
      match values with
      | [_, _] => exact ⟨rfl, rfl⟩
      | [] | [_] | _ :: _ :: _ :: _ => cases h
  | safeDivRem op =>
      match values with
      | [_, _, _] => exact ⟨rfl, rfl⟩
      | [] | [_] | [_, _] | _ :: _ :: _ :: _ :: _ => cases h
  | parameter _ | constant _ | equals | guard _ | result => cases h

theorem Node.wellShaped_of_divide? {node : Node} {wordBits : Nat} {f : NodeId → Int64} {q : Divide}
    (h : node.divide? wordBits (node.operands.map f) = some q) : node.WellShaped := by
  rw [Node.WellShaped, ← (Node.of_divide?_eq_some h).2, List.length_map, Node.length_operands]

namespace Run

variable {run : Run} {g : Graph} {n d : NodeId} {node : Node} {q : Divide} {values : List Int64}

/-- The same arguments on a machine of another kind. -/
def on (run : Run) (arch : Arch) : Run := { run with target := { run.target with arch } }

/-- Only divide instructions look at what kind of machine it is. -/
theorem compute_on (run : Run) (arch : Arch) (id : NodeId) (node : Node) (values : List Int64) :
    (run.on arch).compute id node values =
      match node.divide? run.target.wordBits values with
      | some q => .ok (q.outcome (run.on arch).target)
      | none => run.compute id node values := by
  obtain ⟨kind, stamp, inputs⟩ := node
  cases kind with
  | _ =>
      match values with
      | [] | [_] | [_, _] | [_, _, _] | _ :: _ :: _ :: _ :: _ => rfl

/-- The divide instruction that a node comes to when its operands have values. -/
def divide? (run : Run) (g : Graph) (d : NodeId) : Option Divide :=
  (g.node? d).bind fun node ↦
    if ∀ x ∈ node.operands, IsValue (run.evaluate g x) then
      node.divide? run.target.wordBits (node.operands.map fun x ↦ wordOf (run.evaluate g x))
    else none

def asked (run : Run) (g : Graph) (n : NodeId) : List NodeId :=
  (g.node? n).elim [] fun node ↦ (run.demand n node).asked (run.evaluate g)

/-- Evaluating `n` evaluates the other node too. -/
def Visits (run : Run) (g : Graph) : NodeId → NodeId → Prop :=
  ReflTransGen fun user input ↦ input ∈ run.asked g user

def Executes (run : Run) (g : Graph) (n : NodeId) (q : Divide) : Prop :=
  ∃ d, run.Visits g n d ∧ run.divide? g d = some q

theorem divide?_eq_some_iff :
    run.divide? g d = some q ↔
      ∃ node, g.node? d = some node ∧ (∀ x ∈ node.operands, IsValue (run.evaluate g x)) ∧
        node.divide? run.target.wordBits
          (node.operands.map fun x ↦ wordOf (run.evaluate g x)) = some q := by
  simp [divide?, Option.bind_eq_some_iff]

theorem evaluate_of_divide? (hacyclic : g.Acyclic) (h : run.divide? g d = some q) :
    run.evaluate g d = .ok (q.outcome run.target) := by
  obtain ⟨node, hnode, hvalues, hdivide⟩ := divide?_eq_some_iff.mp h
  rw [run.evaluate_of_node? hacyclic hnode,
    run.demand_of_wellShaped d (Node.wellShaped_of_divide? hdivide)]
  rcases Demand.answer_askValues_cases (run.evaluate g) node.operands (run.compute d node) with
    ⟨-, hanswer⟩ | ⟨x, hx, hstop, -⟩
  · rw [hanswer]
    have hcompute := run.compute_on run.target.arch d node
      (node.operands.map fun x ↦ wordOf (run.evaluate g x))
    rwa [hdivide] at hcompute
  · exact absurd (hvalues x hx) hstop

theorem executes_iff :
    run.Executes g n q ↔ run.divide? g n = some q ∨ ∃ m ∈ run.asked g n, run.Executes g m q := by
  constructor
  · rintro ⟨d, hvisits, hdivide⟩
    rcases hvisits.cases_head with rfl | ⟨m, hm, hrest⟩
    · exact .inl hdivide
    · exact .inr ⟨m, hm, d, hrest, hdivide⟩
  · rintro (hdivide | ⟨m, hm, d, hvisits, hdivide⟩)
    · exact ⟨n, .refl, hdivide⟩
    · exact ⟨d, .head hm hvisits, hdivide⟩

/-- Evaluating the node comes to an instruction that faults on one of the machines. -/
def Faulty (run : Run) (g : Graph) (n : NodeId) : Prop := ∃ q, run.Executes g n q ∧ q.Faults

theorem faulty_iff :
    run.Faulty g n ↔
      (∃ q, run.divide? g n = some q ∧ q.Faults) ∨ ∃ m ∈ run.asked g n, run.Faulty g m := by
  simp only [Faulty, executes_iff (n := n)]
  constructor
  · rintro ⟨q, hdivide | ⟨m, hm, hexecutes⟩, hfaults⟩
    · exact .inl ⟨q, hdivide, hfaults⟩
    · exact .inr ⟨m, hm, q, hexecutes, hfaults⟩
  · rintro (⟨q, hdivide, hfaults⟩ | ⟨m, hm, q, hexecutes, hfaults⟩)
    · exact ⟨q, .inl hdivide, hfaults⟩
    · exact ⟨q, .inr ⟨m, hm, hexecutes⟩, hfaults⟩

theorem exists_divide_iff (hnode : g.node? n = some node) :
    (∃ q, run.divide? g n = some q ∧ q.Faults) ↔
      (∀ x ∈ node.operands, IsValue (run.evaluate g x)) ∧
        ∃ q, node.divide? run.target.wordBits
          (node.operands.map fun x ↦ wordOf (run.evaluate g x)) = some q ∧ q.Faults := by
  simp only [divide?, hnode, Option.bind_some]
  split
  · next hvalues => exact (and_iff_right hvalues).symm
  · next hstop => simp [hstop]

theorem not_faulty_of_dead (hdead : g.node? n = none) : ¬run.Faulty g n := by
  rw [faulty_iff]
  simp [asked, divide?, hdead]

theorem faulty_iff_of_node? (run : Run) (hnode : g.node? n = some node) :
    run.Faulty g n ↔
      (∃ m ∈ (run.demand n node).asked (run.evaluate g), run.Faulty g m) ∨
        (∀ x ∈ node.operands, IsValue (run.evaluate g x)) ∧
        ∃ q, node.divide? run.target.wordBits
          (node.operands.map fun x ↦ wordOf (run.evaluate g x)) = some q ∧ q.Faults := by
  rw [faulty_iff, exists_divide_iff hnode, or_comm, asked, hnode]
  rfl

theorem sameUnless_compute (run : Run) (id : NodeId) (node : Node) (values : List Int64) :
    SameUnless (∃ q, node.divide? run.target.wordBits values = some q ∧ q.Faults)
      ((run.on .x86_64).compute id node values) ((run.on .aarch64).compute id node values) := by
  rw [run.compute_on .x86_64, run.compute_on .aarch64]
  cases hdivide : node.divide? run.target.wordBits values with
  | none => exact .of_eq rfl (by simp)
  | some q =>
      constructor
      · rintro ⟨q', hq, hfaults⟩
        obtain rfl := Option.some.inj hq
        exact congrArg Except.ok (Divide.outcome_of_faults rfl hfaults)
      · intro hsound
        have hfits : ¬q.Faults := fun hfaults ↦ hsound ⟨q, rfl, hfaults⟩
        exact congrArg Except.ok (Divide.outcome_of_not_faults _ _ hfits)

/-- A node traps on the machine that faults if it comes to a divide instruction that faults there,
and otherwise has one outcome on both. -/
theorem sameUnless_evaluate (run : Run) (hacyclic : g.Acyclic) (n : NodeId) :
    SameUnless ((run.on .aarch64).Faulty g n) ((run.on .x86_64).evaluate g n)
      ((run.on .aarch64).evaluate g n) := by
  set x86 := run.on .x86_64
  set arm := run.on .aarch64
  induction n using hacyclic.induction with
  | step n ih =>
      cases hnode : g.node? n with
      | none =>
          rw [x86.evaluate_of_dead hnode, arm.evaluate_of_dead hnode]
          exact .of_eq rfl (not_faulty_of_dead hnode)
      | some node =>
          have hfaulty := arm.faulty_iff_of_node? hnode
          rw [x86.evaluate_of_node? hacyclic hnode, arm.evaluate_of_node? hacyclic hnode]
          by_cases hshape : node.WellShaped
          · rw [x86.demand_of_wellShaped n hshape]
            rw [arm.demand_of_wellShaped n hshape] at hfaulty ⊢
            have hsame := Demand.sameUnless_askValues
              (fun x hx ↦ ih x ⟨node, hnode, Node.mem_operands.mp hx⟩)
              (run.sameUnless_compute n node)
            exact hsame.of_iff hfaulty.symm
          · rw [x86.demand_of_not_wellShaped n hshape]
            rw [arm.demand_of_not_wellShaped n hshape] at hfaulty ⊢
            refine .of_eq rfl fun h ↦ ?_
            rcases hfaulty.mp h with ⟨m, hm, -⟩ | ⟨-, q, hq, -⟩
            · cases hm
            · exact hshape (Node.wellShaped_of_divide? hq)

end Run

end DivGuard
