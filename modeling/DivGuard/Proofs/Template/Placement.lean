import DivGuard.Proofs.Graph.Lookup
import DivGuard.Template.Instantiate
import Mathlib.Data.List.Basic

/-!
# Where copies are placed

Copying reads the number of each copy from the graph that it was added to, and hands it on to the
steps after it.  These numbers are the next ones of the graph, so the copies are known before any is
made: an instantiation adds the nodes of a list, one after the other.
-/

namespace DivGuard.Template

variable {t : Template} {policy : Fallback.Policy} {bindings : Bindings} {bound : List NodeId}
  {g h : Graph} {session : Session} {base : NodeId}

/-- The copies of all steps, numbered from `base` on. -/
def copies (t : Template) (policy : Fallback.Policy) (bound : List NodeId) (base : NodeId) :
    List Node :=
  t.steps.mapIdx fun i step ↦ step.copy policy bound (List.range' base i) (base + i)

@[simp] theorem length_copies (t : Template) (policy : Fallback.Policy) (bound : List NodeId)
    (base : NodeId) : (t.copies policy bound base).length = t.steps.length :=
  List.length_mapIdx

theorem getElem?_copies {i : Nat} :
    (t.copies policy bound base)[i]? =
      t.steps[i]?.map fun step ↦ step.copy policy bound (List.range' base i) (base + i) :=
  List.getElem?_mapIdx

/-- The numbers from `base` on, and what stands for a position beyond them. -/
theorem getD_range' (base count index : Nat) :
    (List.range' base count).getD index (base + count) = base + min index count := by
  rw [List.getD_eq_getElem?_getD]
  by_cases h : index < count
  · rw [List.getElem?_range' h, Nat.min_eq_left (Nat.le_of_lt h), Nat.one_mul]
    rfl
  · rw [List.getElem?_eq_none (by simpa using h), Nat.min_eq_right (Nat.le_of_not_lt h)]
    rfl

/-- Copying goes on as if the copies to come had been numbered before: those of the steps from
position `i` on follow the `i` copies that were made from `base` on. -/
theorem copySteps_eq_addAll (policy : Fallback.Policy) (bound : List NodeId) (steps : List Step)
    (i : Nat) (hsize : g.slots.size = base + i) :
    copySteps policy bound steps (List.range' base i) g =
      Prod.map (Except.map fun _ ↦ List.range' base (i + steps.length)) id
        (g.addAll (steps.mapIdx fun j step ↦
          step.copy policy bound (List.range' base (i + j)) (base + (i + j)))) := by
  induction steps generalizing g i with
  | nil => rfl
  | cons step steps ih =>
      rw [List.mapIdx_cons, Nat.add_zero, copySteps, Graph.addAll, hsize]
      cases hadd : g.add (step.copy policy bound (List.range' base i) (base + i)) with
      | error e => rfl
      | ok added =>
          obtain ⟨id, h⟩ := added
          obtain ⟨-, rfl, rfl⟩ := Graph.add_eq_ok_iff.mp hadd
          have hnext (node : Node) : (g.push node).slots.size = base + (i + 1) := by
            rw [Graph.size_push, hsize, Nat.add_assoc]
          have hcopies : List.range' base i ++ [g.slots.size] = List.range' base (i + 1) := by
            rw [hsize, List.range'_1_concat]
          simp only [hcopies, ih (i + 1) (hnext _), List.length_cons, Nat.add_assoc, Nat.add_comm 1]

/-! ## Instantiation in one piece -/

theorem instantiate_of_unbound {e : UnitError} (hbound : t.bound bindings = .error e) :
    t.instantiate policy bindings g session = (.error e, g, session) := by
  simp only [instantiate, hbound]

theorem copySteps_steps (t : Template) (policy : Fallback.Policy) (bound : List NodeId)
    (g : Graph) :
    copySteps policy bound t.steps [] g =
      Prod.map (Except.map fun _ ↦ List.range' g.slots.size t.steps.length) id
        (g.addAll (t.copies policy bound g.slots.size)) := by
  have hfirst := copySteps_eq_addAll policy bound t.steps 0 (Nat.add_zero g.slots.size).symm
  simp only [Nat.zero_add] at hfirst
  exact hfirst

theorem instantiate_graph (hbound : t.bound bindings = .ok bound) :
    (t.instantiate policy bindings g session).2.1 =
      (g.addAll (t.copies policy bound g.slots.size)).2 := by
  simp only [instantiate, hbound, copySteps_steps]
  rcases g.addAll (t.copies policy bound g.slots.size) with ⟨_ | _, h⟩ <;> rfl

/-- If all copies are added, the result is the number of its copy. -/
theorem instantiate_of_addAll (session : Session) (hbound : t.bound bindings = .ok bound)
    (hadd : g.addAll (t.copies policy bound g.slots.size) =
      (.ok (), g.append (t.copies policy bound g.slots.size))) :
    t.instantiate policy bindings g session =
      (.ok (g.slots.size + min t.result t.steps.length),
        g.append (t.copies policy bound g.slots.size),
        session.recordInstantiated t.steps.length) := by
  simp only [instantiate, hbound, copySteps_steps, hadd, Prod.map, Except.map, id,
    List.length_range', Graph.size_append, length_copies, getD_range']

theorem instantiate_of_addAll_error (session : Session) {e : UnitError}
    (hbound : t.bound bindings = .ok bound)
    (hadd : g.addAll (t.copies policy bound g.slots.size) = (.error e, h)) :
    t.instantiate policy bindings g session = (.error e, h, session) := by
  simp only [instantiate, hbound, copySteps_steps, hadd, Prod.map, Except.map, id]

end DivGuard.Template
