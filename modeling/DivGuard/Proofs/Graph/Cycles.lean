import DivGuard.Proofs.Graph.Built

/-!
# Replacements and cycles

Uses of the old node become uses of the new one.  If the new node depends on the old one, the last
step of the way from the one to the other is such a use, and closes a cycle.  If it does not, a
cycle that goes through a turned use would go on from the new node without meeting another one, and
could not come back.
-/

namespace DivGuard.Graph

open Relation

variable {g : Graph} {old new m n : NodeId}

theorem uses_of_redirect (huse : (g.redirect old new).Uses n m) :
    g.Uses n m ∨ g.Uses n old ∧ m = new := by
  obtain ⟨-, ⟨heq, hturned⟩ | ⟨-, hkept⟩⟩ := uses_redirect_iff.mp huse
  · exact .inr ⟨hturned, heq⟩
  · exact .inl hkept

/-- A way to the old node becomes one to the new node.  It meets the old node at its end only. -/
theorem transGen_redirect (hacyclic : g.Acyclic) (h : TransGen g.Uses n old) :
    TransGen (g.redirect old new).Uses n new := by
  induction h using TransGen.head_induction_on with
  | @single n huse =>
      have hn : n ≠ old := by
        rintro rfl
        exact hacyclic n (.single huse)
      exact .single (uses_redirect_iff.mpr ⟨hn, .inl ⟨rfl, huse⟩⟩)
  | @head n m huse hrest ih =>
      have hn : n ≠ old := by
        rintro rfl
        exact hacyclic n (.head huse hrest)
      have hm : m ≠ old := by
        rintro rfl
        exact hacyclic m hrest
      exact .head (uses_redirect_iff.mpr ⟨hn, .inr ⟨hm, huse⟩⟩) ih

/-- A way after the replacement is one before it, or its first turned use cuts it in two. -/
theorem transGen_redirect_cases (h : TransGen (g.redirect old new).Uses n m) :
    TransGen g.Uses n m ∨ TransGen g.Uses n old ∧ (g.redirect old new).Reaches new m := by
  induction h with
  | single huse =>
      rcases uses_of_redirect huse with hkept | ⟨hturned, rfl⟩
      · exact .inl (.single hkept)
      · exact .inr ⟨.single hturned, .refl⟩
  | tail _ huse ih =>
      rcases ih with hkept | ⟨hcut, hreach⟩
      · rcases uses_of_redirect huse with hnext | ⟨hturned, rfl⟩
        · exact .inl (hkept.tail hnext)
        · exact .inr ⟨hkept.tail hturned, .refl⟩
      · exact .inr ⟨hcut, hreach.tail huse⟩

/-- What the new node depends on is left alone if the old one is not among it. -/
theorem reaches_of_redirect (hfree : ¬TransGen g.Uses new old)
    (h : (g.redirect old new).Reaches new m) : g.Reaches new m := by
  induction h with
  | refl => exact .refl
  | tail _ huse ih =>
      rcases uses_of_redirect huse with hkept | ⟨hturned, -⟩
      · exact ih.tail hkept
      · exact absurd (.tail' ih hturned) hfree

theorem acyclic_redirect_iff (hacyclic : g.Acyclic) :
    (g.redirect old new).Acyclic ↔ ¬TransGen g.Uses new old := by
  constructor
  · intro hafter hdepends
    exact hafter new (transGen_redirect hacyclic hdepends)
  · intro hfree n hcycle
    rcases transGen_redirect_cases hcycle with hkept | ⟨hcut, hreach⟩
    · exact hacyclic n hkept
    · exact hfree (.trans_right (reaches_of_redirect hfree hreach) hcut)

/-- A replacement in a graph without cycles closes one just if the new node depends on the old
one. -/
theorem replace_acyclic_iff (hacyclic : g.Acyclic) (hold : g.contains old = true)
    (hnew : g.contains new = true) :
    ∃ h, g.replace old new = .ok h ∧ (h.Acyclic ↔ ¬TransGen g.Uses new old) :=
  ⟨_, replace_of_live hold hnew, acyclic_redirect_iff hacyclic⟩

/-- A quotient may be replaced by its dividend.  A parameter may not be replaced by the result of
the quotient, which depends on it. -/
theorem replace_acyclic_iff_octets :
    octets.Acyclic ∧
      (octets.contains 2 = true ∧ octets.contains 0 = true ∧ ¬TransGen octets.Uses 0 2 ∧
        ∃ h, octets.replace 2 0 = .ok h ∧ h.Acyclic) ∧
      (octets.contains 0 = true ∧ octets.contains 3 = true ∧ TransGen octets.Uses 3 0 ∧
        ∃ h, octets.replace 0 3 = .ok h ∧ ¬h.Acyclic) := by
  have hordered : octets.Ordered := octets_built.unlowered.ordered
  have hfree : ¬TransGen octets.Uses 0 2 := by
    intro hdepends
    have hlt : 2 < 0 := hordered.lt_of_transGen hdepends
    exact absurd hlt (by decide)
  have hdepends : TransGen octets.Uses 3 0 :=
    .head ⟨_, rfl, List.mem_singleton_self 2⟩ (.single ⟨_, rfl, List.mem_cons_self⟩)
  have h0 : octets.contains 0 = true := by decide
  have h2 : octets.contains 2 = true := by decide
  have h3 : octets.contains 3 = true := by decide
  obtain ⟨h, hreplace, hiff⟩ := replace_acyclic_iff hordered.acyclic h2 h0
  obtain ⟨h', hreplace', hiff'⟩ := replace_acyclic_iff hordered.acyclic h0 h3
  exact ⟨hordered.acyclic, ⟨h2, h0, hfree, h, hreplace, hiff.mpr hfree⟩,
    ⟨h0, h3, hdepends, h', hreplace', fun hafter ↦ hiff'.mp hafter hdepends⟩⟩

end DivGuard.Graph
