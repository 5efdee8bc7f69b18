import DivGuard.Proofs.Graph.Lookup
import DivGuard.Interpreter.Demand
import Mathlib.Data.List.Basic
import Mathlib.Tactic.Tauto

/-!
# Nodes as operations on words

A node with the right number of inputs asks for the values of its operands one after the other and
computes with them.  So either all operands have values and the outcome is what the node makes of
them, or the outcome is that of an operand without a value.
-/

namespace DivGuard

abbrev Result := Except UnitError Outcome

def IsValue (r : Result) : Prop := ∃ v, r = .ok (.value v)

def IsFallback (r : Result) : Prop := ∃ reason, r = .ok (.fallback reason)

/-- The value that an evaluation ended in, zero if it ended otherwise. -/
def wordOf : Result → Int64
  | .ok (.value v) => v
  | _ => 0

@[simp] theorem isValue_value (v : Int64) : IsValue (.ok (.value v)) := ⟨v, rfl⟩

@[simp] theorem wordOf_value (v : Int64) : wordOf (.ok (.value v)) = v := rfl

@[simp] theorem not_isValue_fallback (reason : Fallback.Reason) :
    ¬IsValue (.ok (.fallback reason)) := by
  rintro ⟨v, h⟩
  cases h

@[simp] theorem not_isValue_trap : ¬IsValue (.ok .trap) := by
  rintro ⟨v, h⟩
  cases h

@[simp] theorem not_isValue_error (e : UnitError) : ¬IsValue (.error e) := by
  rintro ⟨v, h⟩
  cases h

theorem IsFallback.not_isValue {r : Result} (h : IsFallback r) : ¬IsValue r := by
  obtain ⟨reason, rfl⟩ := h
  exact not_isValue_fallback reason

instance (r : Result) : Decidable (IsValue r) :=
  match r with
  | .ok (.value v) => .isTrue (isValue_value v)
  | .ok (.fallback reason) => .isFalse (not_isValue_fallback reason)
  | .ok .trap => .isFalse not_isValue_trap
  | .error e => .isFalse (not_isValue_error e)

theorem IsValue.eq {r : Result} (h : IsValue r) : r = .ok (.value (wordOf r)) := by
  obtain ⟨v, rfl⟩ := h
  rfl

namespace Demand

/-- Asks for the values of operands in order and goes on with all of them. -/
def askValues : List NodeId → (List Int64 → Result) → Demand
  | [], next => .done (next [])
  | x :: xs, next => .askValue x fun v ↦ askValues xs fun vs ↦ next (v :: vs)

theorem answer_askValue_of_value {eval : NodeId → Result} {x : NodeId} {v : Int64}
    (h : eval x = .ok (.value v)) (next : Int64 → Demand) :
    (askValue x next).answer eval = (next v).answer eval := by
  simp only [askValue, answer, h]

theorem answer_askValue_of_not_isValue {eval : NodeId → Result} {x : NodeId}
    (h : ¬IsValue (eval x)) (next : Int64 → Demand) :
    (askValue x next).answer eval = eval x := by
  simp only [askValue, answer]
  cases hx : eval x with
  | error e => rfl
  | ok outcome =>
      cases outcome with
      | value v => exact absurd ⟨v, hx⟩ h
      | fallback reason => rfl
      | trap => rfl

theorem answer_askValues_cases (eval : NodeId → Result) (xs : List NodeId)
    (next : List Int64 → Result) :
    ((∀ x ∈ xs, IsValue (eval x)) ∧
      (askValues xs next).answer eval = next (xs.map fun x ↦ wordOf (eval x))) ∨
    ∃ x ∈ xs, ¬IsValue (eval x) ∧ (askValues xs next).answer eval = eval x := by
  induction xs generalizing next with
  | nil => exact .inl ⟨by simp, rfl⟩
  | cons x xs ih =>
      by_cases hx : IsValue (eval x)
      · have hhead : (askValues (x :: xs) next).answer eval =
            (askValues xs fun vs ↦ next (wordOf (eval x) :: vs)).answer eval :=
          answer_askValue_of_value hx.eq _
        rw [hhead]
        rcases ih fun vs ↦ next (wordOf (eval x) :: vs) with ⟨hall, hanswer⟩ | ⟨y, hy, hstop⟩
        · exact .inl ⟨by simpa using ⟨hx, hall⟩, hanswer⟩
        · exact .inr ⟨y, List.mem_cons_of_mem x hy, hstop⟩
      · exact .inr ⟨x, List.mem_cons_self, hx, answer_askValue_of_not_isValue hx _⟩

theorem answer_askValues_map (eval : NodeId → Result) (f : NodeId → NodeId) (xs : List NodeId)
    (next : List Int64 → Result) :
    (askValues (xs.map f) next).answer eval = (askValues xs next).answer fun x ↦ eval (f x) := by
  induction xs generalizing next with
  | nil => rfl
  | cons x xs ih =>
      simp only [List.map_cons, askValues, askValue, answer]
      cases eval (f x) with
      | error e => rfl
      | ok outcome =>
          cases outcome with
          | value v => exact ih _
          | fallback reason => rfl
          | trap => rfl

theorem answer_askValues_congr {eval eval' : NodeId → Result} {xs : List NodeId}
    (next : List Int64 → Result) (h : ∀ x ∈ xs, eval x = eval' x) :
    (askValues xs next).answer eval = (askValues xs next).answer eval' := by
  induction xs generalizing next with
  | nil => rfl
  | cons x xs ih =>
      have hxs : ∀ y ∈ xs, eval y = eval' y := fun y hy ↦ h y (List.mem_cons_of_mem x hy)
      simp only [askValues, askValue, answer, h x List.mem_cons_self]
      cases eval' x with
      | error e => rfl
      | ok outcome =>
          cases outcome with
          | value v => exact ih _ hxs
          | fallback reason => rfl
          | trap => rfl

end Demand

/-- The node has as many inputs as its kind takes. -/
def Node.WellShaped (node : Node) : Prop := node.inputs.length = node.kind.arity

instance (node : Node) : Decidable node.WellShaped :=
  inferInstanceAs (Decidable (node.inputs.length = node.kind.arity))

/-- The inputs in the order in which they are asked for: a guard comes first. -/
def Node.operands (node : Node) : List NodeId :=
  match node.kind, node.inputs with
  | .safeDivRem _, [x, y, guard] => [guard, x, y]
  | _, inputs => inputs

theorem Node.mem_operands {node : Node} {input : NodeId} :
    input ∈ node.operands ↔ input ∈ node.inputs := by
  unfold Node.operands
  split
  · next h =>
    simp only [h, List.mem_cons, List.not_mem_nil, or_false]
    tauto
  · rfl

@[simp] theorem Node.length_operands (node : Node) :
    node.operands.length = node.inputs.length := by
  unfold Node.operands
  split
  · next h => simp [h]
  · rfl

theorem Node.operands_mapInputs (f : NodeId → NodeId) (node : Node) :
    (node.mapInputs f).operands = node.operands.map f := by
  obtain ⟨kind, stamp, inputs⟩ := node
  cases kind with
  | safeDivRem op =>
      match inputs with
      | [] | [_] | [_, _] | [_, _, _] | _ :: _ :: _ :: _ :: _ => rfl
  | _ => rfl

namespace Run

def compute (run : Run) (id : NodeId) (node : Node) (values : List Int64) : Result :=
  let bits := node.stamp.bits?.getD run.target.wordBits
  match node.kind, values with
  | .parameter index, [] => run.argument index bits
  | .constant c, [] => .ok (.value c.word)
  | .equals, [a, b] => .ok (.value (if a = b then 1 else 0))
  | .guard request, [v] => .ok (if v = 0 then .value 0 else .fallback request.reason)
  | .divRem op, [a, b] => .ok (run.target.divide op bits a b)
  | .safeDivRem op, [_, a, b] => .ok (run.target.divide op bits a b)
  | .result, [v] => .ok (.value v)
  | _, _ => .error (.invalidNode id)

theorem compute_mapInputs (run : Run) (id : NodeId) (f : NodeId → NodeId) (node : Node) :
    run.compute id (node.mapInputs f) = run.compute id node := rfl

theorem demand_of_wellShaped (run : Run) (id : NodeId) {node : Node} (h : node.WellShaped) :
    run.demand id node = .askValues node.operands (run.compute id node) := by
  obtain ⟨kind, stamp, inputs⟩ := node
  unfold Node.WellShaped at h
  cases kind with
  | parameter index | constant c =>
      obtain rfl := List.length_eq_zero_iff.mp h
      rfl
  | guard request =>
      obtain ⟨condition, rfl⟩ := List.length_eq_one_iff.mp h
      rfl
  | result =>
      obtain ⟨value, rfl⟩ := List.length_eq_one_iff.mp h
      -- A result passes every outcome on, as a demand for a value does with all but values.
      refine congrArg (Demand.ask value) (funext fun outcome ↦ ?_)
      cases outcome <;> rfl
  | equals | divRem op =>
      obtain ⟨x, y, rfl⟩ := List.length_eq_two.mp h
      rfl
  | safeDivRem op =>
      obtain ⟨x, y, guard, rfl⟩ := List.length_eq_three.mp h
      rfl

theorem demand_of_not_wellShaped (run : Run) (id : NodeId) {node : Node} (h : ¬node.WellShaped) :
    run.demand id node = .done (.error (.invalidNode id)) := by
  obtain ⟨kind, stamp, inputs⟩ := node
  cases kind with
  | parameter index | constant c =>
      match inputs with
      | [] => exact absurd rfl h
      | _ :: _ => rfl
  | guard request | result =>
      match inputs with
      | [_] => exact absurd rfl h
      | [] | _ :: _ :: _ => rfl
  | equals | divRem op =>
      match inputs with
      | [_, _] => exact absurd rfl h
      | [] | [_] | _ :: _ :: _ :: _ => rfl
  | safeDivRem op =>
      match inputs with
      | [_, _, _] => exact absurd rfl h
      | [] | [_] | [_, _] | _ :: _ :: _ :: _ :: _ => rfl

end Run

end DivGuard
