import DivGuard.Proofs.Editing.Edits
import DivGuard.Proofs.Graph.Population
import Mathlib.Data.Finset.Sort

/-!
# What a replacement changes

A node takes the place of another one: the other is gone, and whoever used it uses the new one, at
the same places.  Nothing else happens, so the users of every node can be told from the users
before.  The two may use each other and themselves, and a user may name them several times.
-/

namespace DivGuard

variable {g : Graph} {old new id user : NodeId}

/-- Two nodes that differ only in that the second has the input `new` where the first has `old`. -/
structure Node.Redirected (old new : NodeId) (before after : Node) : Prop where
  kind_eq : after.kind = before.kind
  stamp_eq : after.stamp = before.stamp
  length_eq : after.inputs.length = before.inputs.length
  turned : ∀ i : Nat, before.inputs[i]? = some old → after.inputs[i]? = some new
  kept : ∀ (i : Nat) (input : NodeId), before.inputs[i]? = some input → input ≠ old →
    after.inputs[i]? = some input

theorem Node.redirected (old new : NodeId) (node : Node) :
    node.Redirected old new (node.redirect old new) where
  kind_eq := rfl
  stamp_eq := rfl
  length_eq := List.length_map _
  turned := by
    intro i hi
    simp [redirect, hi]
  kept := by
    intro i input hi hne
    simp [redirect, hi, hne]

namespace Graph

/-- What becomes of a graph if `new` takes the place of another node `old`. -/
structure Replaced (g : Graph) (old new : NodeId) (h : Graph) : Prop where
  name_eq : h.name = g.name
  size_eq : h.slots.size = g.slots.size
  deleted : h.node? old = none
  kept : ∀ id node, id ≠ old → g.node? id = some node →
    ∃ after, h.node? id = some after ∧ node.Redirected old new after
  dead : ∀ id, g.node? id = none → h.node? id = none
  liveCount_eq : h.liveCount + 1 = g.liveCount
  usages_old : h.usages old = []
  usages_new : h.usages new =
    (((g.usages old).toFinset ∪ (g.usages new).toFinset).erase old).sort (· ≤ ·)
  usages_other : ∀ id, id ≠ old → id ≠ new → h.usages id = (g.usages id).erase old

/-! ## Users -/

theorem usages_pairwise (g : Graph) (id : NodeId) : (g.usages id).Pairwise (· < ·) :=
  g.nodeIds_pairwise.filter _

theorem usages_nodup (g : Graph) (id : NodeId) : (g.usages id).Nodup :=
  (g.usages_pairwise id).imp Nat.ne_of_lt

theorem mem_usages_redirect :
    user ∈ (g.redirect old new).usages id ↔
      user ≠ old ∧ (id = new ∧ user ∈ g.usages old ∨ id ≠ old ∧ user ∈ g.usages id) := by
  simp only [mem_usages, uses_redirect_iff]

/-- Lists of users are increasing, so they are told apart by who is in them. -/
theorem usages_eq_of_mem_iff {users : List NodeId} (hsorted : users.Pairwise (· < ·))
    (hmem : ∀ user, user ∈ g.usages id ↔ user ∈ users) : g.usages id = users :=
  (g.usages_pairwise id).eq_of_mem_iff hsorted hmem

theorem usages_redirect_old (hne : old ≠ new) : (g.redirect old new).usages old = [] := by
  rw [List.eq_nil_iff_forall_not_mem]
  intro user huser
  obtain ⟨-, ⟨heq, -⟩ | ⟨hself, -⟩⟩ := mem_usages_redirect.mp huser
  · exact hne heq
  · exact hself rfl

theorem usages_redirect_new (hne : old ≠ new) :
    (g.redirect old new).usages new =
      (((g.usages old).toFinset ∪ (g.usages new).toFinset).erase old).sort (· ≤ ·) := by
  apply usages_eq_of_mem_iff (Finset.sortedLT_sort _).pairwise
  intro user
  simp [mem_usages_redirect, hne.symm]

theorem usages_redirect_of_ne (hold : id ≠ old) (hnew : id ≠ new) :
    (g.redirect old new).usages id = (g.usages id).erase old := by
  apply usages_eq_of_mem_iff ((g.usages_pairwise id).sublist List.erase_sublist)
  intro user
  rw [mem_usages_redirect, (g.usages_nodup id).mem_erase_iff]
  simp [hold, hnew]

/-! ## The whole graph -/

theorem replaced_redirect (hold : g.contains old = true) (hne : old ≠ new) :
    g.Replaced old new (g.redirect old new) where
  name_eq := rfl
  size_eq := size_redirect g old new
  deleted := by rw [node?_redirect, if_pos rfl]
  kept := by
    intro id node hid hnode
    refine ⟨node.redirect old new, ?_, node.redirected old new⟩
    rw [node?_redirect, if_neg hid, hnode]
    rfl
  dead := by
    intro id hdead
    rw [node?_redirect, hdead]
    exact ite_self none
  liveCount_eq := liveCount_redirect hold new
  usages_old := usages_redirect_old hne
  usages_new := usages_redirect_new hne
  usages_other := fun _ ↦ usages_redirect_of_ne

/-- The node that lowering puts in the place of a division is another one. -/
theorem replaced_guard {l : Lowering} {key : Template.Key} {x y : NodeId}
    (hdecision : l.decision g old = .rewrite key x y) :
    (g.append (Template.guarded l.policy key x y g.slots.size)).Replaced old (g.slots.size + 3)
      (g.guard l.policy key old x y) := by
  have hlive : g.contains old = true := Lowering.contains_of_rewrite hdecision
  have hlt : old < g.slots.size := lt_size_of_contains hlive
  apply replaced_redirect
  · rw [contains, node?_append_of_lt _ hlt]
    exact hlive
  · exact Nat.ne_of_lt (Nat.lt_add_right 3 hlt)

theorem replace_of_dead_old (h : g.contains old = false) (new : NodeId) :
    g.replace old new = .error (.invalidNode old) := by
  simp [replace, h]

theorem replace_of_dead_new (hold : g.contains old = true) (h : g.contains new = false) :
    g.replace old new = .error (.invalidNode new) := by
  simp [replace, hold, h]

/-- A replacement is refused if one of the two nodes is not live, the replaced one being asked for
first, and leaves the graph as it was.  Else it succeeds, and the graph is changed just where the
replaced node was or was used.  Lowering replaces nodes by other ones only. -/
theorem replace_effect (g : Graph) (old new : NodeId) :
    (g.contains old = false → g.replace old new = .error (.invalidNode old)) ∧
    (g.contains old = true → g.contains new = false →
      g.replace old new = .error (.invalidNode new)) ∧
    (∀ e, g.replace old new = .error e → Edit.after g (.replace old new) = g) ∧
    (g.contains old = true → g.contains new = true → old ≠ new →
      ∃ h, g.replace old new = .ok h ∧ Edit.after g (.replace old new) = h ∧
        g.Replaced old new h) ∧
    ∀ (l : Lowering) key x y, l.decision g old = .rewrite key x y →
      (g.append (Template.guarded l.policy key x y g.slots.size)).Replaced old (g.slots.size + 3)
        (g.guard l.policy key old x y) := by
  refine ⟨fun hold ↦ replace_of_dead_old hold new, replace_of_dead_new, fun e herror ↦ ?_,
    fun hold hnew hne ↦ ?_, fun l key x y ↦ replaced_guard⟩
  · simp only [Edit.after, herror, Edit.settle]
  · have hreplace : g.replace old new = .ok (g.redirect old new) := replace_of_live hold hnew
    refine ⟨_, hreplace, ?_, replaced_redirect hold hne⟩
    simp only [Edit.after, hreplace, Edit.settle]

/-- A division of a number by itself, a node that uses the division, and one that uses both. -/
def tangled : Graph where
  name := "tangled"
  slots := #[some ⟨.parameter 0, .anyInt 32, []⟩, some ⟨.divRem .udiv, .anyInt 32, [0, 1]⟩,
    some ⟨.equals, .int (.between 32 0 1), [1, 0]⟩,
    some ⟨.safeDivRem .udiv, .anyInt 32, [1, 2, 1]⟩, none, some ⟨.result, .void, [3]⟩]

theorem replace_effect_tangled :
    let g : Graph := .tangled
    let l : Lowering := { target := .aarch64 }
    (g.contains 4 = false ∧ g.replace 4 6 = .error (.invalidNode 4) ∧
        Edit.after g (.replace 4 6) = g) ∧
      (g.contains 0 = true ∧ g.contains 4 = false ∧ g.replace 0 4 = .error (.invalidNode 4) ∧
        Edit.after g (.replace 0 4) = g) ∧
      (g.contains 1 = true ∧ g.contains 2 = true ∧ g.usages 1 = [1, 2, 3] ∧ g.usages 2 = [3] ∧
        ∃ h, g.replace 1 2 = .ok h ∧ Edit.after g (.replace 1 2) = h ∧ g.Replaced 1 2 h ∧
          h.node? 3 = some ⟨.safeDivRem .udiv, .anyInt 32, [2, 2, 2]⟩ ∧ h.usages 2 = [2, 3]) ∧
      l.decision g 1 = .rewrite ⟨.udiv, 32⟩ 0 1 ∧
        (g.append (Template.guarded l.policy ⟨.udiv, 32⟩ 0 1 6)).Replaced 1 9
          (g.guard l.policy ⟨.udiv, 32⟩ 1 0 1) := by
  intro g l
  have hold : g.contains 1 = true := by decide
  have hnew : g.contains 2 = true := by decide
  have hdead : g.contains 4 = false := by decide
  have hdecision : l.decision g 1 = .rewrite ⟨.udiv, 32⟩ 0 1 := by decide
  obtain ⟨hrefused, -, hsame, -⟩ := g.replace_effect 4 6
  obtain ⟨-, hrefused', hsame', -⟩ := g.replace_effect 0 4
  obtain ⟨-, -, -, hdone, hlowered⟩ := g.replace_effect 1 2
  obtain ⟨h, hreplace, hafter, heffect⟩ := hdone hold hnew (by decide)
  have hh : h = g.redirect 1 2 := Except.ok.inj (hreplace.symm.trans (replace_of_live hold hnew))
  refine ⟨⟨hdead, hrefused hdead, hsame _ (hrefused hdead)⟩,
    ⟨by decide, hdead, hrefused' (by decide) hdead, hsame' _ (hrefused' (by decide) hdead)⟩,
    ⟨hold, hnew, by decide, by decide, h, hreplace, hafter, heffect, ?_, ?_⟩,
    hdecision, hlowered l _ 0 1 hdecision⟩
  · rw [hh]
    decide +kernel
  · rw [hh]
    decide +kernel

end Graph

end DivGuard
