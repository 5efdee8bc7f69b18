import DivGuard.Proofs.Integer.Division
import DivGuard.Stamp.IntRange
import Mathlib.Algebra.Order.Ring.Int

/-!
# Words of a width

Extending a word from a width by its sign gives the integer that fits the width and differs from the
word by a multiple of a power of two; extending it by zeros gives the least natural number that
does.  A word is extended from a width already just if it fits, that is, if it lies between the
least and the greatest integer of the width.
-/

namespace DivGuard

variable {bits : Nat} {v : Int64} {n : Int}

/-- The integer has a two's complement of the width.  Nothing but zero fits width 0. -/
def FitsWidth (bits : Nat) (n : Int) : Prop :=
  -((2 ^ min bits 64 : Nat) : Int) ≤ n * 2 ∧ n * 2 < ((2 ^ min bits 64 : Nat) : Int)

instance (bits : Nat) (n : Int) : Decidable (FitsWidth bits n) :=
  inferInstanceAs (Decidable (_ ∧ _))

theorem FitsWidth.iff_of_nonneg (h : bits ≤ 64) (hn : 0 ≤ n) :
    FitsWidth bits n ↔ ¬2 ^ bits ≤ 2 * n := by
  have hpow : ((2 ^ bits : Nat) : Int) = 2 ^ bits := by simp
  rw [FitsWidth, Nat.min_eq_left h]
  omega

/-! ## Extension by the sign -/

theorem toInt_signExtend (bits : Nat) (v : Int64) :
    (signExtend bits v).toInt = v.toInt.bmod (2 ^ min bits 64) := by
  have hle : min bits 64 ≤ 64 := Nat.min_le_right bits 64
  rw [signExtend, Int64.toInt_ofBitVec, BitVec.toInt_signExtend_of_le hle, BitVec.toInt_setWidth,
    ← Int64.toInt_toBitVec, BitVec.toInt_eq_toNat_bmod,
    Int.bmod_bmod_of_dvd (Nat.pow_dvd_pow 2 hle)]

theorem fitsWidth_signExtend (bits : Nat) (v : Int64) :
    FitsWidth bits (signExtend bits v).toInt := by
  have hpos : 0 < 2 ^ min bits 64 := Nat.two_pow_pos _
  have hlower := Int.le_bmod (x := v.toInt) hpos
  have hupper := Int.bmod_lt (x := v.toInt) hpos
  rw [toInt_signExtend, FitsWidth]
  omega

theorem signExtend_eq_self_iff : signExtend bits v = v ↔ FitsWidth bits v.toInt := by
  constructor
  · intro h
    rw [← h]
    exact fitsWidth_signExtend bits v
  · rintro ⟨hlower, hupper⟩
    apply Int64.toInt_inj.mp
    rw [toInt_signExtend]
    exact Int.bmod_eq_of_le_mul_two hlower hupper

@[simp] theorem signExtend_signExtend (bits : Nat) (v : Int64) :
    signExtend bits (signExtend bits v) = signExtend bits v :=
  signExtend_eq_self_iff.mpr (fitsWidth_signExtend bits v)

theorem fitsWidth_bmod (h : bits ≤ 64) (n : Int) : FitsWidth bits (n.bmod (2 ^ bits)) := by
  have hpos : 0 < 2 ^ bits := Nat.two_pow_pos bits
  have hlower := Int.le_bmod (x := n) hpos
  have hupper := Int.bmod_lt (x := n) hpos
  rw [FitsWidth, Nat.min_eq_left h]
  omega

/-- Width 0 keeps nothing of a word. -/
theorem signExtend_of_width_zero (v : Int64) : signExtend 0 v = 0 :=
  signExtend_eq_zero_iff.mpr BitVec.of_length_zero

theorem pos_of_signExtend_ne_zero (h : signExtend bits v ≠ 0) : 0 < bits := by
  apply Nat.pos_of_ne_zero
  rintro rfl
  exact h (signExtend_of_width_zero v)

theorem signExtend_of_le (h : 64 ≤ bits) (v : Int64) : signExtend bits v = v := by
  apply signExtend_eq_self_iff.mpr
  have hlower : -2 ^ 64 ≤ 2 * v.toBitVec.toInt := BitVec.le_two_mul_toInt
  have hupper : 2 * v.toBitVec.toInt < 2 ^ 64 := BitVec.two_mul_toInt_lt
  rw [Int64.toInt_toBitVec] at hlower hupper
  rw [FitsWidth, Nat.min_eq_right h]
  omega

theorem toInt_setWidth (v : Int64) (h : bits ≤ 64) :
    (v.toBitVec.setWidth bits).toInt = (signExtend bits v).toInt := by
  rw [signExtend, Nat.min_eq_left h, Int64.toInt_ofBitVec, BitVec.toInt_signExtend_of_le h]

/-! ## Extension by zeros -/

theorem toNat_zeroExtend (bits : Nat) (v : Int64) :
    (zeroExtend bits v).toNat = v.toBitVec.toNat % 2 ^ min bits 64 := by
  have hlt : v.toBitVec.toNat % 2 ^ min bits 64 < 2 ^ 64 :=
    Nat.lt_of_le_of_lt (Nat.mod_le _ _) v.toBitVec.isLt
  rw [zeroExtend, UInt64.toNat_ofBitVec, BitVec.toNat_setWidth, BitVec.toNat_setWidth,
    Nat.mod_eq_of_lt hlt]

theorem toNat_zeroExtend_lt (bits : Nat) (v : Int64) :
    (zeroExtend bits v).toNat < 2 ^ min bits 64 := by
  rw [toNat_zeroExtend]
  exact Nat.mod_lt _ (Nat.two_pow_pos _)

theorem toNat_setWidth (v : Int64) (h : bits ≤ 64) :
    (v.toBitVec.setWidth bits).toNat = (zeroExtend bits v).toNat := by
  rw [toNat_zeroExtend, BitVec.toNat_setWidth, Nat.min_eq_left h]

/-! ## The bounds of a width -/

theorem toInt_leastInt (n : Nat) : (leastInt (n + 1)).toInt = -((2 ^ min n 63 : Nat) : Int) := by
  have hle : 2 ^ min n 63 ≤ 2 ^ 63 := Nat.pow_le_pow_right (by decide) (Nat.min_le_right n 63)
  have hpos : 0 < 2 ^ min n 63 := Nat.two_pow_pos _
  rw [leastInt, Int64.toInt_ofInt, Nat.one_shiftLeft, Int64.size]
  apply Int.bmod_eq_of_le_mul_two <;> omega

theorem toInt_greatestInt (n : Nat) :
    (greatestInt (n + 1)).toInt = ((2 ^ min n 63 : Nat) : Int) - 1 := by
  have hle : 2 ^ min n 63 ≤ 2 ^ 63 := Nat.pow_le_pow_right (by decide) (Nat.min_le_right n 63)
  have hpos : 0 < 2 ^ min n 63 := Nat.two_pow_pos _
  rw [greatestInt, Int64.toInt_ofInt, Nat.one_shiftLeft, Int64.size]
  apply Int.bmod_eq_of_le_mul_two <;> omega

theorem toInt_leastInt_mul_two (h : 0 < bits) :
    (leastInt bits).toInt * 2 = -((2 ^ min bits 64 : Nat) : Int) := by
  obtain ⟨n, rfl⟩ := Nat.exists_eq_add_one_of_ne_zero (Nat.ne_of_gt h)
  have hpow : 2 ^ min (n + 1) 64 = 2 ^ min n 63 * 2 := by
    rw [← Nat.pow_succ, Nat.add_min_add_right n 63 1]
  rw [toInt_leastInt, hpow]
  omega

theorem fitsWidth_iff_bounds :
    FitsWidth bits v.toInt ↔ leastInt bits ≤ v ∧ v ≤ greatestInt bits := by
  rw [Int64.le_iff_toInt_le, Int64.le_iff_toInt_le]
  cases bits with
  | zero =>
      have hzero : Int64.toInt 0 = 0 := by decide
      rw [FitsWidth, leastInt, greatestInt, hzero, Nat.zero_min]
      omega
  | succ n =>
      have hpow : 2 ^ min (n + 1) 64 = 2 * 2 ^ min n 63 := by
        rw [← Nat.pow_succ', Nat.add_min_add_right n 63 1]
      rw [FitsWidth, hpow, toInt_leastInt, toInt_greatestInt]
      push_cast
      omega

theorem leastInt_le_greatestInt (bits : Nat) : leastInt bits ≤ greatestInt bits := by
  have hzero : FitsWidth bits (Int64.toInt 0) := signExtend_eq_self_iff.mp (signExtend_zero bits)
  obtain ⟨hlower, hupper⟩ := fitsWidth_iff_bounds.mp hzero
  exact Std.le_trans hlower hupper

theorem leastInt_ne_greatestInt (h : 0 < bits) : leastInt bits ≠ greatestInt bits := by
  obtain ⟨n, rfl⟩ := Nat.exists_eq_add_one_of_ne_zero (Nat.ne_of_gt h)
  have hpos : 0 < 2 ^ min n 63 := Nat.two_pow_pos _
  rw [Ne, ← Int64.toInt_inj, toInt_leastInt, toInt_greatestInt]
  omega

@[simp] theorem signExtend_leastInt (bits : Nat) :
    signExtend bits (leastInt bits) = leastInt bits :=
  signExtend_eq_self_iff.mpr
    (fitsWidth_iff_bounds.mpr ⟨Std.le_refl _, leastInt_le_greatestInt bits⟩)

@[simp] theorem signExtend_greatestInt (bits : Nat) :
    signExtend bits (greatestInt bits) = greatestInt bits :=
  signExtend_eq_self_iff.mpr
    (fitsWidth_iff_bounds.mpr ⟨leastInt_le_greatestInt bits, Std.le_refl _⟩)

theorem signExtend_neg_one (h : 0 < bits) : signExtend bits (-1) = -1 := by
  have hone : (-1 : Int64).toInt = -1 := by decide
  have htwo : 2 ^ 1 ≤ 2 ^ min bits 64 := Nat.pow_le_pow_right (by decide) (by omega)
  rw [signExtend_eq_self_iff, hone, FitsWidth]
  omega

/-- The range of all integers of a width reaches from the least to the greatest. -/
theorem IntRange.full_eq (bits : Nat) : full bits = ⟨bits, leastInt bits, greatestInt bits⟩ := by
  rw [full, between, signExtend_leastInt, signExtend_greatestInt]

end DivGuard
