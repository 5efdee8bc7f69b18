import DivGuard.Reference.ClassType
import Mathlib.Data.List.Infix

/-!
# The order of classes

A class includes those whose chain of names ends in its own chain, so inclusion is a partial order
and the classes above a given one are ordered along its chain.  The common ancestor of two classes
is the least class that includes both.
-/

namespace DivGuard.ClassType

variable {a b c d : ClassType}

theorem chain_injective : Function.Injective chain := by
  intro a b h
  induction a generalizing b with
  | root name =>
      cases b with
      | root name' => simpa [chain] using h
      | subclass name' superclass' => cases superclass' <;> simp [chain] at h
  | subclass name superclass ih =>
      cases b with
      | root name' => cases superclass <;> simp [chain] at h
      | subclass name' superclass' =>
          simp only [chain, List.cons.injEq] at h
          rw [h.1, ih h.2]

theorem chain_ne_nil (a : ClassType) : a.chain ≠ [] := by
  cases a <;> simp [chain]

theorem includes_iff_suffix : a.includes b = true ↔ a.chain <:+ b.chain := by
  induction b with
  | root name =>
      simp only [includes, beq_iff_eq, chain, List.suffix_cons_iff, List.suffix_nil,
        a.chain_ne_nil, or_false]
      exact (chain_injective.eq_iff (b := .root name)).symm
  | subclass name superclass ih =>
      simp only [includes, Bool.or_eq_true, beq_iff_eq, ih, chain, List.suffix_cons_iff]
      exact or_congr_left (chain_injective.eq_iff (b := .subclass name superclass)).symm

theorem includes_refl (a : ClassType) : a.includes a = true :=
  includes_iff_suffix.mpr (List.suffix_refl _)

theorem includes_trans (hab : a.includes b = true) (hbc : b.includes c = true) :
    a.includes c = true :=
  includes_iff_suffix.mpr
    ((includes_iff_suffix.mp hab).trans (includes_iff_suffix.mp hbc))

theorem includes_antisymm (hab : a.includes b = true) (hba : b.includes a = true) : a = b :=
  chain_injective <| (includes_iff_suffix.mp hab).eq_of_length_le
    (includes_iff_suffix.mp hba).length_le

theorem includes_subclass (name : String) (a : ClassType) :
    a.includes (.subclass name a) = true := by
  simp [includes, includes_refl]

theorem not_subclass_includes (name : String) (a : ClassType) :
    (subclass name a).includes a = false := by
  rw [Bool.eq_false_iff]
  intro h
  have hle := (includes_iff_suffix.mp h).length_le
  simp only [chain, List.length_cons] at hle
  omega

theorem includes_root {name : String} : a.includes (.root name) = true ↔ a = .root name := by
  simp [includes]

theorem includes_subclass_iff {name : String} :
    a.includes (.subclass name b) = true ↔ a = .subclass name b ∨ a.includes b = true := by
  simp [includes]

/-! ## Common ancestors -/

/-- The classes that include both are those that include the common ancestor, if there is one. -/
theorem includes_both_iff :
    (c.includes a = true ∧ c.includes b = true) ↔
      ∃ m, a.commonAncestor? b = some m ∧ c.includes m = true := by
  induction a with
  | root name =>
      by_cases h : (root name).includes b = true
      · simp only [commonAncestor?, h, if_true, Option.some.injEq, exists_eq_left', includes_root]
        constructor
        · exact fun hc ↦ hc.1
        · rintro rfl
          exact ⟨rfl, h⟩
      · refine iff_of_false ?_ (by simp [commonAncestor?, h])
        rintro ⟨hroot, hb⟩
        obtain rfl := includes_root.mp hroot
        exact h hb
  | subclass name superclass ih =>
      by_cases h : (subclass name superclass).includes b = true
      · simp only [commonAncestor?, h, if_true, Option.some.injEq, exists_eq_left']
        exact ⟨fun hc ↦ hc.1, fun hc ↦ ⟨hc, includes_trans hc h⟩⟩
      · have hne : c.includes b = true → c ≠ subclass name superclass := by
          rintro hc rfl
          exact h hc
        rw [commonAncestor?, if_neg h, ← ih, includes_subclass_iff]
        tauto

theorem commonAncestor?_eq_some_iff :
    a.commonAncestor? b = some c ↔
      (c.includes a = true ∧ c.includes b = true) ∧
        ∀ d : ClassType, d.includes a = true → d.includes b = true → d.includes c = true := by
  constructor
  · intro hcommon
    refine ⟨includes_both_iff.mpr ⟨c, hcommon, c.includes_refl⟩, fun d ha hb ↦ ?_⟩
    obtain ⟨m, hm, hdm⟩ := includes_both_iff.mp ⟨ha, hb⟩
    obtain rfl : m = c := Option.some.inj (hm.symm.trans hcommon)
    exact hdm
  · rintro ⟨hboth, hleast⟩
    obtain ⟨m, hm, hcm⟩ := includes_both_iff.mp hboth
    obtain ⟨ha, hb⟩ := includes_both_iff.mpr ⟨m, hm, m.includes_refl⟩
    rwa [includes_antisymm hcm (hleast m ha hb)]

theorem commonAncestor?_eq_none_iff :
    a.commonAncestor? b = none ↔ ∀ c : ClassType, ¬(c.includes a = true ∧ c.includes b = true) := by
  simp only [includes_both_iff, Option.eq_none_iff_forall_ne_some]
  constructor
  · rintro hnone c ⟨m, hm, -⟩
    exact hnone m hm
  · intro hnot m hm
    exact hnot m ⟨m, hm, m.includes_refl⟩

theorem commonAncestor?_comm (a b : ClassType) : a.commonAncestor? b = b.commonAncestor? a := by
  ext c
  rw [commonAncestor?_eq_some_iff, commonAncestor?_eq_some_iff]
  exact and_congr and_comm (forall_congr' fun _ ↦ imp.swap)

/-- Inclusion is a partial order, and the common ancestor of two classes is the least class that
includes both, in whichever order they are given.  There is none just if no class includes both. -/
theorem commonAncestor?_least (a b : ClassType) :
    (∀ c, a.commonAncestor? b = some c ↔
      (c.includes a = true ∧ c.includes b = true) ∧
        ∀ d : ClassType, d.includes a = true → d.includes b = true → d.includes c = true) ∧
    (a.commonAncestor? b = none ↔ ∀ c : ClassType, ¬(c.includes a = true ∧ c.includes b = true)) ∧
    a.commonAncestor? b = b.commonAncestor? a ∧
    IsPartialOrder ClassType fun c d ↦ c.includes d = true :=
  ⟨fun _ ↦ commonAncestor?_eq_some_iff, commonAncestor?_eq_none_iff, commonAncestor?_comm a b,
    { refl := includes_refl
      trans := fun _ _ _ ↦ includes_trans
      antisymm := fun _ _ ↦ includes_antisymm }⟩

/-- Names do not make a class: two classes of one name below different roots share no ancestor, and
a name may come back further up the chain. -/
example :
    (ofChain "A" ["B"]).commonAncestor? (ofChain "A" ["C"]) = none ∧
      (ofChain "A" ["B", "A"]).commonAncestor? (ofChain "C" ["A"]) = some (.root "A") := by
  decide

end DivGuard.ClassType
