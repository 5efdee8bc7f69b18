import DivGuard.Template.Instantiate
import Mathlib.Data.List.Induction

/-!
# What slots are bound to

The last binding of a slot wins.  A template finds the nodes bound to its slots in the order of the
slots, or stops at the first slot without one.
-/

namespace DivGuard

/-- The first member of a list with a property. -/
def IsFirst {α : Type} (p : α → Prop) (xs : List α) (x : α) : Prop :=
  ∃ before after, xs = before ++ x :: after ∧ p x ∧ ∀ y ∈ before, ¬p y

theorem isFirst_of_find? {α : Type} {p : α → Prop} {q : α → Bool} {xs : List α} {x : α}
    (hq : ∀ y, q y = true ↔ p y) (hfind : xs.find? q = some x) : IsFirst p xs x := by
  obtain ⟨hx, before, after, rfl, hbefore⟩ := List.find?_eq_some_iff_append.mp hfind
  refine ⟨before, after, rfl, (hq x).mp hx, fun y hy hp ↦ ?_⟩
  simpa [(hq y).mpr hp] using hbefore y hy

theorem getElem?_filterMap {α β : Type} {f : α → Option β} {xs : List α}
    (h : ∀ x ∈ xs, f x ≠ none) (i : Nat) : (xs.filterMap f)[i]? = xs[i]?.bind f := by
  induction xs generalizing i with
  | nil => rfl
  | cons x xs ih =>
      obtain ⟨hx, hxs⟩ := List.forall_mem_cons.mp h
      obtain ⟨y, hy⟩ := Option.ne_none_iff_exists'.mp hx
      rw [List.filterMap_cons_some hy]
      cases i with
      | zero => simp [hy]
      | succ i => simpa using ih hxs i

namespace Bindings

/-- The node that a sequence of bindings leaves a slot with: the last that was bound to it. -/
def lastBound? (entries : List (String × NodeId)) (slot : String) : Option NodeId :=
  entries.reverse.lookup slot

theorem lookup_cons (slot other : String) (node : NodeId) (entries : List (String × NodeId)) :
    ((slot, node) :: entries).lookup other =
      if other = slot then some node else entries.lookup other := by
  by_cases h : other = slot
  · simp [h]
  · simp [List.lookup_cons, h, beq_eq_false_iff_ne.mpr h]

theorem lookup_bindIn (slot other : String) (node : NodeId) (entries : List (String × NodeId)) :
    (bindIn slot node entries).lookup other =
      if other = slot then some node else entries.lookup other := by
  induction entries with
  | nil => exact lookup_cons slot other node []
  | cons entry entries ih =>
      obtain ⟨name, bound⟩ := entry
      by_cases hname : name = slot
      · subst hname
        rw [bindIn, if_pos rfl, lookup_cons, lookup_cons]
        split <;> rfl
      · rw [bindIn, if_neg hname, lookup_cons, lookup_cons, ih]
        by_cases hother : other = name
        · rw [if_pos hother, if_pos hother, if_neg (hother ▸ hname)]
        · rw [if_neg hother, if_neg hother]

theorem get?_bind (b : Bindings) (slot other : String) (node : NodeId) :
    (b.bind slot node).get? other = if other = slot then some node else b.get? other :=
  lookup_bindIn slot other node b.entries

theorem get?_ofList (entries : List (String × NodeId)) :
    (ofList entries).get? = lastBound? entries := by
  funext other
  induction entries using List.reverseRecOn with
  | nil => rfl
  | append_singleton entries entry ih =>
      obtain ⟨slot, node⟩ := entry
      have hlast : ofList (entries ++ [(slot, node)]) = (ofList entries).bind slot node := by
        rw [ofList, List.foldl_append]
        rfl
      rw [hlast, get?_bind, ih, lastBound?, lastBound?, List.reverse_concat, lookup_cons]

end Bindings

namespace Template

/-- Either all slots have nodes, or the first without one is reported. -/
theorem bound_cases (t : Template) (bindings : Bindings) :
    (∃ slot, IsFirst (fun slot ↦ bindings.get? slot = none) t.slots slot ∧
      t.bound bindings = .error (.templateBinding t.key slot)) ∨
    ((∀ slot ∈ t.slots, bindings.get? slot ≠ none) ∧
      t.bound bindings = .ok (t.slots.filterMap bindings.get?)) := by
  unfold bound
  generalize t.slots = slots
  induction slots with
  | nil => exact .inr ⟨by simp, rfl⟩
  | cons slot slots ih =>
      rw [List.mapM_cons]
      cases hslot : bindings.get? slot with
      | none => exact .inl ⟨slot, ⟨[], slots, rfl, hslot, by simp⟩, rfl⟩
      | some node =>
          rcases ih with ⟨unbound, ⟨before, after, rfl, hnone, hbefore⟩, hslots⟩ | ⟨hall, hslots⟩
          · refine .inl ⟨unbound, ⟨slot :: before, after, rfl, hnone, ?_⟩, by rw [hslots]; rfl⟩
            exact List.forall_mem_cons.mpr ⟨by simp [hslot], hbefore⟩
          · refine .inr ⟨List.forall_mem_cons.mpr ⟨by simp [hslot], hall⟩, ?_⟩
            rw [hslots, List.filterMap_cons_some hslot]
            rfl

end Template

end DivGuard
