import DivGuard.Proofs.Stamp.Facts
import DivGuard.Proofs.Stamp.Ranges
import DivGuard.Stamp.Merge

/-!
# Merging is the least upper bound

A merged stamp admits what either side admits, and no other stamp of that representation that does
so admits less.  Stamps of different representations are refused.
-/

namespace DivGuard.Stamp

variable {a b : Stamp}

def Admits : Stamp → Value → Prop
  | .void, _ => False
  | .int range, .int word => range.contains word = true
  | .int _, .null => False
  | .int _, .object _ => False
  | .ref _ facts, v => facts.Admits v

/-- If the stamp is that of an integer, there is one in its range. -/
def RangeNonempty : Stamp → Prop
  | .void => True
  | .int range => ∃ v, range.contains v = true
  | .ref _ _ => True

theorem compatible_cases (h : a.Compatible b) :
    (a = .void ∧ b = .void) ∨ (∃ r s, a = .int r ∧ b = .int s ∧ r.bits = s.bits) ∨
      ∃ layout f g, a = .ref layout f ∧ b = .ref layout g := by
  cases a <;> cases b <;> simp_all [Compatible, representation]

theorem merge_int {r s : IntRange} (h : r.bits = s.bits) :
    merge (.int r) (.int s) = .ok (.int (r.hull s)) := by
  simp [merge, h]

theorem merge_ref (layout : RefLayout) (f g : RefFacts) :
    merge (.ref layout f) (.ref layout g) = .ok (.ref layout (f.merge g)) := by
  simp [merge]

theorem merge_of_not_compatible (h : ¬a.Compatible b) :
    a.merge b = .error (.incompatibleStamps a b) := by
  cases a <;> cases b <;> simp_all [Compatible, representation, merge]

/-- A stamp that admits what either of two admits, and no more than any other such stamp of the same
representation. -/
structure LeastAbove (a b m : Stamp) : Prop where
  compatible : m.Compatible a
  admits : ∀ v, a.Admits v ∨ b.Admits v → m.Admits v
  least : ∀ s : Stamp, s.Compatible a → (∀ v, a.Admits v ∨ b.Admits v → s.Admits v) →
    ∀ v, m.Admits v → s.Admits v

theorem leastAbove_void : LeastAbove .void .void .void where
  compatible := rfl
  admits _ hv := hv.elim id id
  least _ _ _ _ hv := hv.elim

theorem leastAbove_hull {r s : IntRange} (hbits : r.bits = s.bits)
    (hr : ∃ v, r.contains v = true) (hs : ∃ v, s.contains v = true) :
    LeastAbove (.int r) (.int s) (.int (r.hull s)) where
  compatible := rfl
  admits v hv := by
    obtain ⟨hwithin, hwithin'⟩ := IntRange.hull_within_iff.mp (.refl (r.hull s))
    cases v with
    | int word =>
        rcases hv with hv | hv
        · exact hwithin.contains rfl hv
        · exact hwithin'.contains hbits.symm hv
    | null => exact hv.elim id id
    | object type => exact hv.elim id id
  least t ht hadmits v hv := by
    obtain ⟨-, hvoid⟩ | ⟨t, -, rfl, -, -⟩ | ⟨layout, f, g, -, href⟩ := compatible_cases ht
    · cases hvoid
    · cases v with
      | int word =>
          exact IntRange.contains_of_hull hbits (Representation.int.inj ht) hr hs
            (fun u hu ↦ hadmits (.int u) (.inl hu)) (fun u hu ↦ hadmits (.int u) (.inr hu)) hv
      | null => exact hv.elim
      | object type => exact hv.elim
    · cases href

theorem leastAbove_merge (layout : RefLayout) (f g : RefFacts) :
    LeastAbove (.ref layout f) (.ref layout g) (.ref layout (f.merge g)) where
  compatible := rfl
  admits v hv := by
    obtain ⟨hf, hg⟩ := RefFacts.merge_implies_iff.mp (.refl (f.merge g))
    exact hv.elim (hf v) (hg v)
  least t ht hadmits v hv := by
    obtain ⟨-, hvoid⟩ | ⟨-, r, -, hint, -⟩ | ⟨layout', h, -, rfl, -⟩ := compatible_cases ht
    · cases hvoid
    · cases hint
    · exact RefFacts.merge_implies_iff.mpr
        ⟨fun u hu ↦ hadmits u (.inl hu), fun u hu ↦ hadmits u (.inr hu)⟩ v hv

/-- Compatible stamps merge to the least stamp above both, others are refused. -/
theorem merge_least (a b : Stamp) :
    (a.Compatible b → a.RangeNonempty → b.RangeNonempty →
      ∃ m, a.merge b = .ok m ∧ LeastAbove a b m) ∧
    (¬a.Compatible b → a.merge b = .error (.incompatibleStamps a b)) := by
  refine ⟨fun hcompatible ha hb ↦ ?_, merge_of_not_compatible⟩
  rcases compatible_cases hcompatible with
    ⟨rfl, rfl⟩ | ⟨r, s, rfl, rfl, hbits⟩ | ⟨layout, f, g, rfl, rfl⟩
  · exact ⟨.void, rfl, leastAbove_void⟩
  · exact ⟨_, merge_int hbits, leastAbove_hull hbits ha hb⟩
  · exact ⟨_, merge_ref layout f g, leastAbove_merge layout f g⟩

/-- Two exact classes below one that neither extends directly, and ranges with a gap between. -/
theorem merge_least_siblings :
    let object := ClassType.root "Object"
    let number := ClassType.subclass "Number" object
    let integer := Stamp.ref .full (.exactly (.subclass "Integer" number))
    let long := Stamp.ref .full (.exactly (.subclass "Long" number))
    let low := Stamp.int (.between 8 1 5)
    let high := Stamp.int (.between 8 10 20)
    LeastAbove integer long (.ref .full (.instanceOf number)) ∧
      LeastAbove low high (.int (.between 8 1 20)) := by
  intro object number integer long low high
  have hlow : low.RangeNonempty := IntRange.exists_contains_between_iff.mpr (by decide)
  have hhigh : high.RangeNonempty := IntRange.exists_contains_between_iff.mpr (by decide)
  have hclass : integer.merge long = .ok (.ref .full (.instanceOf number)) := by decide +kernel
  have hrange : low.merge high = .ok (.int (.between 8 1 20)) := by decide +kernel
  obtain ⟨m, hm, hleast⟩ := (merge_least integer long).1 rfl trivial trivial
  obtain rfl := Except.ok.inj (hclass.symm.trans hm)
  obtain ⟨m', hm', hleast'⟩ := (merge_least low high).1 rfl hlow hhigh
  obtain rfl := Except.ok.inj (hrange.symm.trans hm')
  exact ⟨hleast, hleast'⟩

end DivGuard.Stamp
