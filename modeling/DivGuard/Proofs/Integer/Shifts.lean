import DivGuard.Proofs.Integer.Extension

/-!
# Extension by shifts and masks

A machine extends a word by its sign with two shifts, up until the sign of the width stands at the
top and down again, and by zeros with a mask of the low bits.  The widths that a word has no shift
for are told apart first.
-/

namespace DivGuard

variable {bits n : Nat}

/-- An amount below 64 is taken as it is. -/
theorem smod_amount (hn : n < 64) : (Int64.ofNat n).toBitVec.smod 64 = BitVec.ofNat 64 n := by
  have hall : ∀ n < 64, (Int64.ofNat n).toBitVec.smod 64 = BitVec.ofNat 64 n := by decide +kernel
  exact hall n hn

theorem toNat_lowMask (h : bits < 64) :
    ((1 <<< UInt64.ofNat bits) - 1 : UInt64).toNat = 2 ^ bits - 1 := by
  have hall : ∀ bits < 64, ((1 <<< UInt64.ofNat bits) - 1 : UInt64).toNat = 2 ^ bits - 1 := by
    decide +kernel
  exact hall bits h

theorem toBitVec_shift_back (hn : n < 64) (v : Int64) :
    ((v <<< Int64.ofNat n) >>> Int64.ofNat n).toBitVec = (v.toBitVec <<< n).sshiftRight n := by
  have hword : (BitVec.ofNat 64 n).toNat = n := by
    rw [BitVec.toNat_ofNat]
    omega
  rw [Int64.toBitVec_shiftRight, Int64.toBitVec_shiftLeft, smod_amount hn, BitVec.shiftLeft_eq',
    BitVec.sshiftRight_eq', hword]

/-- Shifting up and down brings each bit back to its place, and fills those above with the last. -/
theorem signExtend_of_lt (hpos : 0 < bits) (hlt : bits < 64) (v : Int64) :
    signExtend bits v = (v <<< Int64.ofNat (64 - bits)) >>> Int64.ofNat (64 - bits) := by
  apply Int64.toBitVec_inj.mp
  rw [toBitVec_shift_back (by omega), signExtend, Nat.min_eq_left hlt.le, Int64.toBitVec_ofBitVec]
  apply BitVec.eq_of_getLsbD_eq
  intro i hi
  rw [BitVec.getLsbD_signExtend, BitVec.getLsbD_sshiftRight]
  by_cases hlow : i < bits
  · have hinside : 64 - bits + i < 64 := by omega
    have hplace : 64 - bits + i - (64 - bits) = i := by omega
    have habove : ¬64 - bits + i < 64 - bits := by omega
    simp [hi, hlow, hinside, hplace, habove]
  · -- Both sides show the sign of the width, which the shift put at the top.
    have houtside : ¬64 - bits + i < 64 := by omega
    have htop : 63 - (64 - bits) = bits - 1 := by omega
    have hsign : bits - 1 < bits := by omega
    have hbelow : ¬63 < 64 - bits := by omega
    have hword : bits - 1 < 64 := by omega
    simp [hi, hlow, houtside, BitVec.msb_eq_getLsbD_last, htop, hsign, hbelow, Nat.not_le.mpr hi,
      BitVec.getLsbD_eq_getElem hword]

theorem zeroExtend_of_lt (hlt : bits < 64) (v : Int64) :
    zeroExtend bits v = v.toUInt64 &&& ((1 <<< UInt64.ofNat bits) - 1) := by
  apply UInt64.toNat_inj.mp
  rw [toNat_zeroExtend, UInt64.toNat_and, Nat.min_eq_left hlt.le, toNat_lowMask hlt,
    Nat.and_two_pow_sub_one_eq_mod]
  rfl

theorem zeroExtend_of_le (h : 64 ≤ bits) (v : Int64) : zeroExtend bits v = v.toUInt64 := by
  apply UInt64.toNat_inj.mp
  rw [toNat_zeroExtend, Nat.min_eq_right h]
  exact Nat.mod_eq_of_lt v.toBitVec.isLt

theorem signExtend_eq_shift (bits : Nat) (v : Int64) :
    signExtend bits v =
      if bits = 0 then 0
      else if 64 ≤ bits then v
      else (v <<< Int64.ofNat (64 - bits)) >>> Int64.ofNat (64 - bits) := by
  split
  · next h => rw [h, signExtend_of_width_zero]
  · next hpos =>
    split
    · next h => exact signExtend_of_le h v
    · next h => exact signExtend_of_lt (Nat.pos_of_ne_zero hpos) (Nat.lt_of_not_le h) v

theorem zeroExtend_eq_mask (bits : Nat) (v : Int64) :
    zeroExtend bits v =
      if 64 ≤ bits then v.toUInt64 else v.toUInt64 &&& ((1 <<< UInt64.ofNat bits) - 1) := by
  split
  · next h => exact zeroExtend_of_le h v
  · next h => exact zeroExtend_of_lt (Nat.lt_of_not_le h) v

end DivGuard
