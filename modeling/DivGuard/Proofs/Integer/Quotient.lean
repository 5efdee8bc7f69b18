import DivGuard.Proofs.Integer.Extension

/-!
# Quotients and remainders as integers

What the division of words gives, said of the integers that the words stand for.  At width 32 both
operands are cut to the width first and the result is extended from it.  At other widths words are
divided whole: signed operations read them as they are, unsigned ones extended by zeros.
-/

namespace DivGuard

variable {bits : Nat} {x y v : Int64} {op : DivOp} {a b : Int}

/-! ## The results of small operands -/

theorem natAbs_tmod_le (a b : Int) : (a.tmod b).natAbs ≤ a.natAbs := by
  rw [Int.natAbs_tmod]
  exact Nat.mod_le _ _

theorem tmod_nonpos (ha : a ≤ 0) (b : Int) : a.tmod b ≤ 0 := by
  have hneg : 0 ≤ (-a).tmod b := Int.tmod_nonneg b (Int.neg_nonneg_of_nonpos ha)
  rw [Int.neg_tmod] at hneg
  omega

theorem two_mul_natAbs_tdiv_le (hb : 2 ≤ b.natAbs) : 2 * (a.tdiv b).natAbs ≤ a.natAbs := by
  have hle : a.natAbs / b.natAbs ≤ a.natAbs / 2 := Nat.div_le_div_left hb (by decide)
  rw [Int.natAbs_tdiv]
  change 2 * (a.natAbs / b.natAbs) ≤ a.natAbs
  omega

/-- The one signed quotient that leaves the width of its dividend. -/
theorem FitsWidth.tdiv_iff (ha : FitsWidth bits a) :
    FitsWidth bits (a.tdiv b) ↔ ¬(a * 2 = -((2 ^ min bits 64 : Nat) : Int) ∧ b = -1) := by
  have hpos : 0 < 2 ^ min bits 64 := Nat.two_pow_pos _
  unfold FitsWidth at *
  by_cases hone : b = -1
  · subst hone
    rw [Int.tdiv_neg, Int.tdiv_one]
    omega
  · have hfits : -((2 ^ min bits 64 : Nat) : Int) ≤ a.tdiv b * 2 ∧
        a.tdiv b * 2 < ((2 ^ min bits 64 : Nat) : Int) := by
      rcases Nat.lt_or_ge b.natAbs 2 with hsmall | hlarge
      · obtain rfl | rfl : b = 0 ∨ b = 1 := by omega
        · rw [Int.tdiv_zero]
          omega
        · rw [Int.tdiv_one]
          omega
      · have hhalf : 2 * (a.tdiv b).natAbs ≤ a.natAbs := two_mul_natAbs_tdiv_le hlarge
        omega
    simpa [hone] using hfits

theorem FitsWidth.tmod (ha : FitsWidth bits a) (b : Int) : FitsWidth bits (a.tmod b) := by
  have hle : (a.tmod b).natAbs ≤ a.natAbs := natAbs_tmod_le a b
  unfold FitsWidth at *
  rcases Int.le_total 0 a with hpositive | hnegative
  · have hsign : 0 ≤ a.tmod b := Int.tmod_nonneg b hpositive
    omega
  · have hsign : a.tmod b ≤ 0 := tmod_nonpos hnegative b
    omega

namespace DivOp

/-- The operation on integers, rounding toward zero. -/
def onInts : DivOp → Int → Int → Int
  | .sdiv, a, b | .udiv, a, b => a.tdiv b
  | .srem, a, b | .urem, a, b => a.tmod b

theorem toInt_onBits {w : Nat} (hsigned : op.isSigned = true) (a b : BitVec w) :
    (op.onBits a b).toInt = (op.onInts a.toInt b.toInt).bmod (2 ^ w) := by
  cases op with
  | sdiv => exact BitVec.toInt_sdiv a b
  | srem =>
      calc
        (a.srem b).toInt = (a.srem b).toInt.bmod (2 ^ w) := (BitVec.toInt_bmod_cancel _).symm
        _ = (a.toInt.tmod b.toInt).bmod (2 ^ w) := by rw [BitVec.toInt_srem]
  | udiv | urem => cases hsigned

theorem toNat_onBits {w : Nat} (hunsigned : op.isSigned = false) (a b : BitVec w) :
    ((op.onBits a b).toNat : Int) = op.onInts a.toNat b.toNat := by
  cases op with
  | sdiv | srem => cases hunsigned
  | udiv => exact (congrArg Nat.cast BitVec.toNat_udiv).trans (Int.ofNat_tdiv _ _)
  | urem => exact (congrArg Nat.cast BitVec.toNat_umod).trans (Int.ofNat_tmod _ _)

/-- A word as the operation reads it at a width. -/
def read (op : DivOp) (bits : Nat) (v : Int64) : Int :=
  if op.isSigned then (signExtend bits v).toInt else (zeroExtend bits v).toNat

/-- A word as the operation reads it where it divides whole words. -/
def readWord (op : DivOp) (bits : Nat) (v : Int64) : Int :=
  if op.isSigned then v.toInt else (zeroExtend bits v).toNat

theorem natAbs_onInts_le (op : DivOp) (a b : Int) : (op.onInts a b).natAbs ≤ a.natAbs := by
  cases op with
  | sdiv | udiv => exact Int.natAbs_tdiv_le_natAbs a b
  | srem | urem => exact natAbs_tmod_le a b

theorem onInts_nonneg (op : DivOp) (ha : 0 ≤ a) (hb : 0 ≤ b) : 0 ≤ op.onInts a b := by
  cases op with
  | sdiv | udiv => exact Int.tdiv_nonneg ha hb
  | srem | urem => exact Int.tmod_nonneg b ha

theorem natAbs_readWord_lt (op : DivOp) (hbits : bits < 64) (hx : signExtend bits x = x) :
    (op.readWord bits x).natAbs < 2 ^ 63 := by
  have hpow : 2 ^ min bits 64 ≤ 2 ^ 63 := Nat.pow_le_pow_right (by decide) (by omega)
  have hfits : FitsWidth bits x.toInt := signExtend_eq_self_iff.mp hx
  have hzero : (zeroExtend bits x).toNat < 2 ^ min bits 64 := toNat_zeroExtend_lt bits x
  unfold FitsWidth at hfits
  unfold readWord
  split <;> omega

theorem readWord_of_signExtend (op : DivOp) (h : signExtend bits v = v) :
    op.readWord bits v = op.read bits v := by
  rw [readWord, read, h]

theorem exists_onBits_of_divide? {w : Nat} {a b r : BitVec w} (h : op.divide? a b = some r) :
    r = op.onBits a b := by
  unfold divide? at h
  split at h
  · cases h
  · exact (Option.some.inj h).symm

theorem toInt_of_fold_32 (h : op.fold 32 x y = some v) :
    v.toInt = (op.onInts (op.read 32 x) (op.read 32 y)).bmod (2 ^ 32) := by
  obtain ⟨r, hr, rfl⟩ := Option.map_eq_some_iff.mp h
  have hle : 32 ≤ 64 := by decide
  rw [exists_onBits_of_divide? hr, Int64.toInt_ofBitVec, BitVec.toInt_signExtend_of_le hle]
  cases hsigned : op.isSigned with
  | true =>
      rw [toInt_onBits hsigned, toInt_setWidth x hle, toInt_setWidth y hle]
      simp [read, hsigned]
  | false =>
      rw [BitVec.toInt_eq_toNat_bmod, toNat_onBits hsigned, toNat_setWidth x hle,
        toNat_setWidth y hle]
      simp [read, hsigned]

theorem toInt_of_fold (hbits : bits ≠ 32) (h : op.fold bits x y = some v) :
    v.toInt = (op.onInts (op.readWord bits x) (op.readWord bits y)).bmod (2 ^ 64) := by
  cases hsigned : op.isSigned with
  | true =>
      simp only [fold, hbits, hsigned, if_false, if_true] at h
      obtain ⟨r, hr, rfl⟩ := Option.map_eq_some_iff.mp h
      rw [exists_onBits_of_divide? hr, Int64.toInt_ofBitVec, toInt_onBits hsigned]
      simp [readWord, hsigned]
  | false =>
      simp only [fold, hbits, hsigned, if_false, Bool.false_eq_true] at h
      obtain ⟨r, hr, rfl⟩ := Option.map_eq_some_iff.mp h
      rw [exists_onBits_of_divide? hr, Int64.toInt_ofBitVec, BitVec.toInt_eq_toNat_bmod,
        toNat_onBits hsigned]
      simp [readWord, hsigned]

/-- Below the width of a word nothing is lost of the quotient of a word that fits the width. -/
theorem toInt_of_fold_of_lt (hbits : bits < 64) (h32 : bits ≠ 32) (hx : signExtend bits x = x)
    (h : op.fold bits x y = some v) :
    v.toInt = op.onInts (op.readWord bits x) (op.readWord bits y) := by
  have hle := op.natAbs_onInts_le (op.readWord bits x) (op.readWord bits y)
  have hlt := op.natAbs_readWord_lt hbits hx
  rw [toInt_of_fold h32 h]
  apply Int.bmod_eq_of_le_mul_two <;> omega

end DivOp

end DivGuard
