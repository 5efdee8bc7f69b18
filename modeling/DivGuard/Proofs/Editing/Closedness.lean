import DivGuard.Proofs.Editing.Edits
import DivGuard.Proofs.Lowering.Soundness

/-!
# Edits and dead inputs

Additions are refused if an input is not live, and lowering turns uses to nodes that it has just
added.  Replacing a node by another one is safe as well.  A node that takes its own place, however,
is deleted, and its uses stay.  Nothing else ever leaves a dead input in a closed graph.
-/

namespace DivGuard.Graph

variable {g : Graph} {old new id user input : NodeId}

theorem Closed.redirect_iff (hclosed : g.Closed) (hnew : g.contains new = true) :
    (g.redirect old new).Closed ↔ (old = new → ∀ user, g.Uses user old → user = old) := by
  constructor
  · rintro hafter rfl user huse
    by_contra hne
    have hdangling : (g.redirect old old).Uses user old :=
      uses_redirect_iff.mpr ⟨hne, .inl ⟨rfl, huse⟩⟩
    have hlive := hafter user old hdangling
    simp [contains_redirect] at hlive
  · intro hself user input huse
    rw [contains_redirect]
    obtain ⟨hne, ⟨rfl, hturned⟩ | ⟨hother, hkept⟩⟩ := uses_redirect_iff.mp huse
    · have hapart : input ≠ old := fun heq ↦ hne (hself heq.symm user hturned)
      simp [hapart, hnew]
    · simp [hother, hclosed user input hkept]

theorem Closed.call (hclosed : g.Closed) (l : Lowering) (call : Lowering.Call) (session : Session)
    (cache : Template.Cache) : (call.after l ⟨g, session, cache⟩).graph.Closed := by
  let w : Workspace := ⟨g, session, cache⟩
  obtain ⟨ds, hx, -⟩ := (Expansion.refl l g).call_replacements (w := w) hclosed call
  exact hx.closed hclosed

theorem Closed.after_iff (hclosed : g.Closed) (e : Edit) :
    (e.after g).Closed ↔ ∀ id, e = .replace id id → ∀ user, g.Uses user id → user = id := by
  constructor
  · rintro hafter id rfl user huse
    have hlive : g.contains id = true := hclosed user id huse
    have hredirect : Edit.after g (.replace id id) = g.redirect id id := by
      simp [Edit.after, replace, hlive, Edit.settle]
    rw [hredirect] at hafter
    exact (hclosed.redirect_iff hlive).mp hafter rfl user huse
  · intro hself
    apply Edit.after_induction (p := Closed) (fun g node hlive hg ↦ hg.push hlive) e hclosed
    · intro old new he _ hnew
      refine (hclosed.redirect_iff hnew).mpr ?_
      rintro rfl user huse
      exact hself old he user huse
    · intro l call session cache _
      exact hclosed.call l call session cache

theorem closed_empty (name : String) : Closed { name } := by
  rintro user input ⟨node, hnode, -⟩
  simp [node?] at hnode

/-- Along a sequence of edits every graph is closed, unless some edit replaces a node by itself that
another node uses. -/
theorem closed_throughout_iff (name : String) (edits : List Edit) :
    ((∀ i, (edit { name } (edits.take i)).Closed) ↔
      ∀ i id, edits[i]? = some (.replace id id) →
        ∀ user, (edit { name } (edits.take i)).Uses user id → user = id) ∧
    ∀ i, (edit { name } (edits.take i)).Closed ↔
      ∀ id, (edit { name } (edits.take i)).contains id = false →
        (edit { name } (edits.take i)).usages id = [] := by
  refine ⟨⟨?_, ?_⟩, fun i ↦ closed_iff_usages⟩
  · intro hall i id he
    have hnext := hall (i + 1)
    rw [edit_take_succ _ he] at hnext
    exact ((hall i).after_iff _).mp hnext id rfl
  · intro hself i
    induction i with
    | zero => exact closed_empty name
    | succ i ih =>
        cases he : edits[i]? with
        | none =>
            have hlength : edits.length ≤ i := List.getElem?_eq_none_iff.mp he
            rw [edit_take_of_length_le _ hlength] at ih
            rwa [edit_take_of_length_le _ (Nat.le_succ_of_le hlength)]
        | some e =>
            rw [edit_take_succ _ he]
            refine (ih.after_iff e).mpr ?_
            rintro id rfl
            exact hself i id he

/-- A parameter that takes its own place is gone, and the result still names it. -/
theorem self_replacement_leaves_dead_input :
    let g : Graph := edit {} [.addParameter 0 (.anyInt 32), .addResult 0, .replace 0 0]
    g.node? 1 = some ⟨.result, .void, [0]⟩ ∧ g.contains 0 = false ∧ g.usages 0 = [1] ∧
      ¬g.Closed := by
  decide +kernel

end DivGuard.Graph
