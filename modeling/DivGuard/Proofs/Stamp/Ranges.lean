import DivGuard.Stamp.IntRange

/-!
# The hull of two ranges

The hull is the least range, by its bounds, around two others.  Every integer in it is in one of the
two or lies between them, so a range that contains both as sets contains the hull as a set, provided
that neither is empty.
-/

namespace DivGuard

instance lawfulOrderMaxInt64 : Std.LawfulOrderMax Int64 :=
  have hmax (a b : Int64) : max a b = if a ≤ b then b else a := rfl
  .of_max_le_iff
    (fun a b c ↦ by
      rw [hmax]
      split
      · next hab => exact ⟨fun hb ↦ ⟨Std.le_trans hab hb, hb⟩, fun h ↦ h.2⟩
      · next hab =>
        have hba : b ≤ a := Std.le_total.resolve_left hab
        exact ⟨fun ha ↦ ⟨ha, Std.le_trans hba ha⟩, fun h ↦ h.1⟩)
    (fun a b ↦ by
      rw [hmax]
      split <;> simp)

namespace IntRange

variable {r s t : IntRange} {v : Int64}

theorem contains_iff :
    r.contains v = true ↔ r.lower ≤ signExtend r.bits v ∧ signExtend r.bits v ≤ r.upper := by
  simp [contains]

/-- A range between two bounds holds an integer just if they are in order. -/
theorem exists_contains_between_iff {bits : Nat} {lower upper : Int64} :
    (∃ v, (between bits lower upper).contains v = true) ↔
      signExtend bits lower ≤ signExtend bits upper := by
  constructor
  · rintro ⟨v, hv⟩
    exact Std.le_trans (contains_iff.mp hv).1 (contains_iff.mp hv).2
  · intro hle
    exact ⟨lower, contains_iff.mpr ⟨Std.le_refl _, hle⟩⟩

def Within (r s : IntRange) : Prop := s.lower ≤ r.lower ∧ r.upper ≤ s.upper

theorem Within.refl (r : IntRange) : r.Within r := ⟨Std.le_refl _, Std.le_refl _⟩

theorem hull_within_iff : (r.hull s).Within t ↔ r.Within t ∧ s.Within t := by
  simp only [Within, hull, Std.le_min_iff, Std.max_le_iff, and_and_and_comm]

theorem Within.antisymm (hrs : r.Within s) (hsr : s.Within r) (hbits : r.bits = s.bits) :
    r = s := by
  obtain ⟨bits, lower, upper⟩ := r
  obtain ⟨bits', lower', upper'⟩ := s
  obtain rfl : bits = bits' := hbits
  obtain rfl : lower = lower' := Std.le_antisymm hsr.1 hrs.1
  obtain rfl : upper = upper' := Std.le_antisymm hrs.2 hsr.2
  rfl

theorem Within.contains (hrs : r.Within s) (hbits : r.bits = s.bits) (hv : r.contains v = true) :
    s.contains v = true := by
  rw [contains_iff] at hv ⊢
  rw [← hbits]
  exact ⟨Std.le_trans hrs.1 hv.1, Std.le_trans hv.2 hrs.2⟩

/-- What lies above the lower bound of a range is in it or beyond all that it contains. -/
theorem lower_le_of_contains (hbits : t.bits = r.bits) (hr : ∃ v, r.contains v = true)
    (hrt : ∀ v, r.contains v = true → t.contains v = true)
    (hv : r.lower ≤ signExtend r.bits v) : t.lower ≤ signExtend t.bits v := by
  obtain ⟨u, hu⟩ := hr
  rw [hbits]
  rcases Std.le_total (a := signExtend r.bits v) (b := r.upper) with hin | hbeyond
  · exact hbits ▸ (contains_iff.mp (hrt v (contains_iff.mpr ⟨hv, hin⟩))).1
  · have hlower := (contains_iff.mp (hrt u hu)).1
    rw [hbits] at hlower
    exact Std.le_trans hlower (Std.le_trans (contains_iff.mp hu).2 hbeyond)

theorem le_upper_of_contains (hbits : t.bits = r.bits) (hr : ∃ v, r.contains v = true)
    (hrt : ∀ v, r.contains v = true → t.contains v = true)
    (hv : signExtend r.bits v ≤ r.upper) : signExtend t.bits v ≤ t.upper := by
  obtain ⟨u, hu⟩ := hr
  rw [hbits]
  rcases Std.le_total (a := r.lower) (b := signExtend r.bits v) with hin | hbeyond
  · exact hbits ▸ (contains_iff.mp (hrt v (contains_iff.mpr ⟨hin, hv⟩))).2
  · have hupper := (contains_iff.mp (hrt u hu)).2
    rw [hbits] at hupper
    exact Std.le_trans hbeyond (Std.le_trans (contains_iff.mp hu).1 hupper)

theorem contains_of_hull (hrs : r.bits = s.bits) (ht : t.bits = r.bits)
    (hr : ∃ v, r.contains v = true) (hs : ∃ v, s.contains v = true)
    (hrt : ∀ v, r.contains v = true → t.contains v = true)
    (hst : ∀ v, s.contains v = true → t.contains v = true)
    (hv : (r.hull s).contains v = true) : t.contains v = true := by
  obtain ⟨hlower, hupper⟩ := contains_iff.mp hv
  refine contains_iff.mpr ⟨?_, ?_⟩
  · rcases Std.min_le.mp hlower with hlower | hlower
    · exact lower_le_of_contains ht hr hrt hlower
    · exact lower_le_of_contains (ht.trans hrs) hs hst (hrs ▸ hlower)
  · rcases Std.le_max.mp hupper with hupper | hupper
    · exact le_upper_of_contains ht hr hrt hupper
    · exact le_upper_of_contains (ht.trans hrs) hs hst (hrs ▸ hupper)

end IntRange

end DivGuard
