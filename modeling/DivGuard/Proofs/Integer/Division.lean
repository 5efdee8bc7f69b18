import DivGuard.Constant
import DivGuard.Machine.Outcome

/-!
# When a division fails

A divisor counts as zero at a width if the low bits that the width keeps are zero.  Every other
divisor has a quotient, so only a machine that faults can end a division in a trap.
-/

namespace DivGuard

variable {bits : Nat} {x y : Int64} {op : DivOp} {target : Target}

theorem signExtend_bitVec_zero (n m : Nat) : (0#n).signExtend m = 0#m := by
  rw [BitVec.signExtend_eq_setWidth_of_msb_false (by simp)]
  simp

theorem bitVec_eq_zero_of_signExtend {n m : Nat} {b : BitVec n} (hle : n ≤ m)
    (h : b.signExtend m = 0#m) : b = 0#n := by
  have hint : b.toInt = (0#n).toInt := by
    rw [← BitVec.toInt_signExtend_of_le hle, h, BitVec.toInt_zero, BitVec.toInt_zero]
  exact BitVec.toInt_inj.mp hint

theorem signExtend_eq_zero_iff :
    signExtend bits y = 0 ↔ y.toBitVec.setWidth (min bits 64) = 0#(min bits 64) := by
  constructor
  · intro h
    have hword : (y.toBitVec.setWidth (min bits 64)).signExtend 64 = 0#64 := by
      simpa [signExtend] using congrArg Int64.toBitVec h
    exact bitVec_eq_zero_of_signExtend (Nat.min_le_right bits 64) hword
  · intro h
    rw [signExtend, h, signExtend_bitVec_zero]
    rfl

@[simp] theorem signExtend_zero (bits : Nat) : signExtend bits 0 = 0 :=
  signExtend_eq_zero_iff.mpr (by simp)

@[simp] theorem Constant.ofInt_zero (bits : Nat) : Constant.ofInt bits 0 = .int bits 0 := by
  simp [Constant.ofInt]

theorem DivOp.divide?_eq_none_iff {n : Nat} {a b : BitVec n} :
    op.divide? a b = none ↔ b = 0#n := by
  simp [divide?]

theorem DivOp.signExtend_of_fold_eq_none (h : op.fold bits x y = none) :
    signExtend bits y = 0 := by
  unfold fold at h
  split at h
  · next hbits =>
    subst hbits
    rw [Option.map_eq_none_iff, divide?_eq_none_iff] at h
    exact signExtend_eq_zero_iff.mpr h
  split at h
  · rw [Option.map_eq_none_iff, divide?_eq_none_iff] at h
    rw [signExtend_eq_zero_iff, h]
    simp
  · rw [Option.map_eq_none_iff, divide?_eq_none_iff] at h
    rw [signExtend_eq_zero_iff]
    have hlow := congrArg (BitVec.setWidth (min bits 64)) h
    simpa [zeroExtend, BitVec.setWidth_setWidth_of_le _ (Nat.min_le_right bits 64)] using hlow

theorem Target.divide_eq_value (h : target.arch.faultsOnZero = false) (op : DivOp) (bits : Nat)
    (x y : Int64) : ∃ v, target.divide op bits x y = .value v := by
  unfold divide
  by_cases hzero : signExtend bits y = 0
  · exact ⟨0, by simp [hzero, h]⟩
  · cases hfold : op.fold bits x y with
    | none => exact absurd (DivOp.signExtend_of_fold_eq_none hfold) hzero
    | some v => exact ⟨v, by simp [hzero, h]⟩

theorem Target.divide_of_signExtend (target : Target) (op : DivOp) (x : Int64)
    (h : signExtend bits y = 0) :
    target.divide op bits x y = if target.arch.faultsOnZero then .trap else .value 0 := by
  rw [divide, if_pos h]

end DivGuard
