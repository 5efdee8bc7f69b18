import DivGuard.Proofs.Integer.Residues
import DivGuard.Proofs.Stamp.Constants

/-!
# What a range contains

A range tests the representative of a word at its width.  As long as both bounds fit the width and
are in order, this is the same as asking for any integer between the bounds that differs from the
word by a multiple of the power of two.  All ranges that can be formed are of this kind.
-/

namespace DivGuard

variable {bits : Nat} {v : Int64} {c : Constant}

theorem FitsWidth.of_between {a n b : Int} (ha : FitsWidth bits a) (hb : FitsWidth bits b)
    (han : a ≤ n) (hnb : n ≤ b) : FitsWidth bits n := by
  obtain ⟨hlower, -⟩ := ha
  obtain ⟨-, hupper⟩ := hb
  exact ⟨by omega, by omega⟩

namespace IntRange

variable {r s : IntRange}

/-- The ranges that can be formed.  Bounds are given in order once they are extended from the width;
hulls are taken of ranges of one width only. -/
inductive Formed : IntRange → Prop
  | full (bits : Nat) : Formed (full bits)
  | single (bits : Nat) (value : Int64) : Formed (single bits value)
  | between {bits : Nat} {lower upper : Int64}
      (hordered : signExtend bits lower ≤ signExtend bits upper) : Formed (between bits lower upper)
  | hull {r s : IntRange} (hr : Formed r) (hs : Formed s) (hbits : r.bits = s.bits) :
      Formed (r.hull s)

/-- Both bounds fit the width, and there is something between them. -/
structure WellFormed (r : IntRange) : Prop extends r.Normal where
  ordered : r.lower ≤ r.upper

theorem WellFormed.hull (hr : r.WellFormed) (hs : s.WellFormed) (hbits : r.bits = s.bits) :
    (r.hull s).WellFormed where
  toNormal := hr.toNormal.hull hs.toNormal hbits
  ordered := by
    have hlower : min r.lower s.lower ≤ r.lower := Std.min_le_left
    have hupper : r.upper ≤ max r.upper s.upper := Std.left_le_max
    exact Std.le_trans hlower (Std.le_trans hr.ordered hupper)

theorem Formed.wellFormed (h : r.Formed) : r.WellFormed := by
  induction h with
  | full bits =>
      refine ⟨normal_between _ _ _, ?_⟩
      rw [full_eq]
      exact leastInt_le_greatestInt bits
  | single bits value => exact ⟨normal_between _ _ _, Std.le_refl _⟩
  | between hordered => exact ⟨normal_between _ _ _, hordered⟩
  | hull _ _ hbits ihr ihs => exact ihr.hull ihs hbits

namespace WellFormed

variable (h : r.WellFormed)

include h

theorem bounds :
    leastInt r.bits ≤ r.lower ∧ r.lower ≤ r.upper ∧ r.upper ≤ greatestInt r.bits := by
  have hlower := fitsWidth_iff_bounds.mp (signExtend_eq_self_iff.mp h.lower_eq)
  have hupper := fitsWidth_iff_bounds.mp (signExtend_eq_self_iff.mp h.upper_eq)
  exact ⟨hlower.1, h.ordered, hupper.2⟩

theorem fitsWidth {n : Int} (hlower : r.lower.toInt ≤ n) (hupper : n ≤ r.upper.toInt) :
    FitsWidth r.bits n :=
  (signExtend_eq_self_iff.mp h.lower_eq).of_between (signExtend_eq_self_iff.mp h.upper_eq) hlower
    hupper

theorem contains_iff_modEq :
    r.contains v = true ↔
      ∃ n : Int, r.lower.toInt ≤ n ∧ n ≤ r.upper.toInt ∧ n ≡ v.toInt [ZMOD 2 ^ min r.bits 64] := by
  simp only [contains_iff, Int64.le_iff_toInt_le]
  constructor
  · rintro ⟨hlower, hupper⟩
    exact ⟨_, hlower, hupper, signExtend_modEq r.bits v⟩
  · rintro ⟨n, hlower, hupper, hmod⟩
    have hn : n = (signExtend r.bits v).toInt :=
      eq_signExtend_iff.mpr ⟨h.fitsWidth hlower hupper, hmod⟩
    exact hn ▸ ⟨hlower, hupper⟩

theorem contains_lower : r.contains r.lower = true := by
  rw [contains_iff, h.lower_eq]
  exact ⟨Std.le_refl _, h.ordered⟩

theorem contains_upper : r.contains r.upper = true := by
  rw [contains_iff, h.upper_eq]
  exact ⟨h.ordered, Std.le_refl _⟩

/-- A range pins down a constant just if all that it contains is one residue. -/
theorem constant?_eq_some_iff_residue :
    r.constant? = some c ↔
      (∃! k : Int, ∃ v, r.contains v = true ∧ v.toInt % 2 ^ min r.bits 64 = k) ∧
        ∀ v, r.contains v = true → c = .ofInt r.bits v := by
  rw [constant?_eq_some_iff]
  constructor
  · rintro ⟨hrange, rfl⟩
    have hword : ∀ v, r.contains v = true → signExtend r.bits r.lower = signExtend r.bits v := by
      intro v hv
      obtain ⟨hlower, hupper⟩ := contains_iff.mp hv
      rw [h.lower_eq]
      exact Std.le_antisymm hlower (hrange ▸ hupper)
    refine ⟨⟨_, ⟨r.lower, h.contains_lower, rfl⟩, ?_⟩, fun v hv ↦ ?_⟩
    · rintro k ⟨v, hv, rfl⟩
      exact (signExtend_eq_iff.mp (hword v hv)).symm
    · exact congrArg (Constant.int r.bits) (hword v hv)
  · rintro ⟨⟨k, -, hunique⟩, hc⟩
    have hlower : r.lower.toInt % 2 ^ min r.bits 64 = k := hunique _ ⟨_, h.contains_lower, rfl⟩
    have hupper : r.upper.toInt % 2 ^ min r.bits 64 = k := hunique _ ⟨_, h.contains_upper, rfl⟩
    have hsame : signExtend r.bits r.lower = signExtend r.bits r.upper :=
      signExtend_eq_iff.mpr (hlower.trans hupper.symm)
    rw [h.lower_eq, h.upper_eq] at hsame
    exact ⟨hsame, hc _ h.contains_lower⟩

end WellFormed

theorem mayBeZero_iff : r.mayBeZero = true ↔ r.lower ≤ 0 ∧ 0 ≤ r.upper := by
  rw [mayBeZero, contains_iff, signExtend_zero]

/-- Every range that can be formed has bounds of its width, in order.  It contains the words of
which some integer between the bounds is a representative, and it pins down a constant just if they
are all of one residue. -/
theorem normal_and_exact_of_formed (h : r.Formed) :
    (leastInt r.bits ≤ r.lower ∧ r.lower ≤ r.upper ∧ r.upper ≤ greatestInt r.bits) ∧
    (signExtend r.bits r.lower = r.lower ∧ signExtend r.bits r.upper = r.upper) ∧
    (∀ v, r.contains v = true ↔ ∃ n : Int,
      r.lower.toInt ≤ n ∧ n ≤ r.upper.toInt ∧ n ≡ v.toInt [ZMOD 2 ^ min r.bits 64]) ∧
    (r.mayBeZero = true ↔ r.lower ≤ 0 ∧ 0 ≤ r.upper) ∧
    ∀ c, r.constant? = some c ↔
      (∃! k : Int, ∃ v, r.contains v = true ∧ v.toInt % 2 ^ min r.bits 64 = k) ∧
        ∀ v, r.contains v = true → c = .ofInt r.bits v := by
  have hr : r.WellFormed := h.wellFormed
  exact ⟨hr.bounds, ⟨hr.lower_eq, hr.upper_eq⟩, fun v ↦ hr.contains_iff_modEq, mayBeZero_iff,
    fun c ↦ hr.constant?_eq_some_iff_residue⟩

/-- Octets from `-3` to `44`, the bounds given as words that are not extended from the width.  The
word 298 is among them, as it differs from 42 by 256.  At width 0 there is one residue. -/
theorem normal_and_exact_of_formed_octets :
    let r := (between 8 253 5).hull (single 8 300)
    r.Formed ∧ (full 0).Formed ∧ r.lower = -3 ∧ r.upper = 44 ∧ r.contains 298 = true ∧
      r.mayBeZero = true ∧ (full 0).constant? = some (.int 0 0) ∧
      ∃! k : Int, ∃ v, (full 0).contains v = true ∧ v.toInt % 2 ^ min 0 64 = k := by
  intro r
  have hformed : r.Formed := .hull (.between (by decide)) (.single 8 300) rfl
  have hnothing : (full 0).Formed := .full 0
  have hpinned : (full 0).constant? = some (.int 0 0) := by decide
  obtain ⟨-, -, hcontains, hzero, -⟩ := normal_and_exact_of_formed hformed
  obtain ⟨-, -, -, -, hconstant⟩ := normal_and_exact_of_formed hnothing
  exact ⟨hformed, hnothing, by decide, by decide,
    (hcontains 298).mpr ⟨42, by decide, by decide, by decide⟩, hzero.mpr (by decide), hpinned,
    ((hconstant _).mp hpinned).1⟩

end IntRange

end DivGuard
