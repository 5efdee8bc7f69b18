import DivGuard.Proofs.Integer.Extension
import Mathlib.Data.Int.ModEq

/-!
# Representatives of residues

A width stands for a modulus, a power of two.  Of the integers that differ from a word by a multiple
of it, extension by the sign picks the one nearest to zero and extension by zeros the least natural
number.  So extending twice is extending from the smaller width, and an extension after one of the
other kind does what it would have done to the word itself.
-/

namespace DivGuard

variable {bits bits' : Nat} {v : Int64} {n : Int}

theorem bmod_emod_of_dvd {m k : Nat} (n : Int) (h : k ∣ m) : n.bmod m % k = n % k := by
  have hdvd : (k : Int) ∣ m := Int.natCast_dvd_natCast.mpr h
  rw [← Int.emod_emod_of_dvd _ hdvd, Int.bmod_emod, Int.emod_emod_of_dvd _ hdvd]

/-- The balanced representative is the only one in the half-open interval around zero. -/
theorem eq_bmod_iff {a : Int} {m : Nat} (hm : 0 < m) :
    n = a.bmod m ↔ (-(m : Int) ≤ n * 2 ∧ n * 2 < m) ∧ n ≡ a [ZMOD m] := by
  constructor
  · rintro rfl
    have hlower := Int.le_bmod (x := a) hm
    have hupper := Int.bmod_lt (x := a) hm
    exact ⟨by omega, Int.bmod_emod⟩
  · rintro ⟨⟨hlower, hupper⟩, hmod⟩
    calc
      n = n.bmod m := (Int.bmod_eq_of_le_mul_two hlower hupper).symm
      _ = (n % m).bmod m := (Int.emod_bmod n m).symm
      _ = (a % m).bmod m := by rw [hmod]
      _ = a.bmod m := Int.emod_bmod a m

/-! ## Extension by the sign -/

theorem eq_signExtend_iff :
    n = (signExtend bits v).toInt ↔
      FitsWidth bits n ∧ n ≡ v.toInt [ZMOD 2 ^ min bits 64] := by
  rw [toInt_signExtend, eq_bmod_iff (Nat.two_pow_pos _), FitsWidth, Nat.cast_pow, Nat.cast_ofNat]

theorem signExtend_modEq (bits : Nat) (v : Int64) :
    (signExtend bits v).toInt ≡ v.toInt [ZMOD 2 ^ min bits 64] :=
  (eq_signExtend_iff.mp rfl).2

/-- Words stand for the same integer at a width just if they are of one residue. -/
theorem signExtend_eq_iff {u v : Int64} :
    signExtend bits u = signExtend bits v ↔ u.toInt ≡ v.toInt [ZMOD 2 ^ min bits 64] := by
  rw [← Int64.toInt_inj, eq_signExtend_iff, and_iff_right (fitsWidth_signExtend bits u)]
  have hu := signExtend_modEq bits u
  exact ⟨hu.symm.trans, hu.trans⟩

/-- Beyond the width of a word the modulus grows, but words stay their own representatives. -/
theorem toInt_signExtend_eq_bmod (bits : Nat) (v : Int64) :
    (signExtend bits v).toInt = v.toInt.bmod (2 ^ bits) := by
  rcases Nat.le_total bits 64 with hle | hge
  · rw [toInt_signExtend, Nat.min_eq_left hle]
  · obtain ⟨hlower, hupper⟩ := fitsWidth_signExtend bits v
    have hpow : 2 ^ min bits 64 ≤ 2 ^ bits := Nat.pow_le_pow_right (by decide) (Nat.min_le_left _ _)
    rw [signExtend_of_le hge] at hlower hupper ⊢
    refine (Int.bmod_eq_of_le_mul_two ?_ ?_).symm <;> omega

theorem eq_signExtend_iff_of_pos (h : 0 < bits) :
    n = (signExtend bits v).toInt ↔
      -2 ^ (bits - 1) ≤ n ∧ n ≤ 2 ^ (bits - 1) - 1 ∧ n ≡ v.toInt [ZMOD 2 ^ bits] := by
  obtain ⟨k, rfl⟩ := Nat.exists_eq_add_of_le' h
  have hcast : ((2 ^ (k + 1) : Nat) : Int) = 2 ^ (k + 1) := by simp
  have hhalf : (2 : Int) ^ (k + 1) = 2 ^ k * 2 := Int.pow_succ 2 k
  rw [toInt_signExtend_eq_bmod, eq_bmod_iff (Nat.two_pow_pos _), hcast, Nat.add_sub_cancel,
    ← and_assoc]
  refine and_congr_left' ?_
  rw [hhalf]
  omega

theorem FitsWidth.mono (hn : FitsWidth bits n) (h : bits ≤ bits') : FitsWidth bits' n := by
  have hpow : 2 ^ min bits 64 ≤ 2 ^ min bits' 64 := Nat.pow_le_pow_right (by decide) (by omega)
  obtain ⟨hlower, hupper⟩ := hn
  exact ⟨by omega, by omega⟩

theorem signExtend_signExtend_min (bits bits' : Nat) (v : Int64) :
    signExtend bits' (signExtend bits v) = signExtend (min bits bits') v := by
  rcases Nat.le_total bits bits' with hle | hge
  · rw [Nat.min_eq_left hle]
    exact signExtend_eq_self_iff.mpr ((fitsWidth_signExtend bits v).mono hle)
  · apply Int64.toInt_inj.mp
    rw [toInt_signExtend_eq_bmod, toInt_signExtend_eq_bmod, toInt_signExtend_eq_bmod,
      Nat.min_eq_right hge, Int.bmod_bmod_of_dvd (Nat.pow_dvd_pow 2 hge)]

/-! ## Extension by zeros -/

theorem toNat_zeroExtend_eq_emod (bits : Nat) (v : Int64) :
    ((zeroExtend bits v).toNat : Int) = v.toInt % (2 ^ min bits 64 : Nat) := by
  have hdvd : 2 ^ min bits 64 ∣ 2 ^ 64 := Nat.pow_dvd_pow 2 (Nat.min_le_right bits 64)
  rw [toNat_zeroExtend, ← Int64.toInt_toBitVec, BitVec.toInt_eq_toNat_bmod, bmod_emod_of_dvd _ hdvd,
    Int.natCast_emod]

theorem eq_zeroExtend_iff :
    n = (zeroExtend bits v).toNat ↔
      0 ≤ n ∧ n < 2 ^ min bits 64 ∧ n ≡ v.toInt [ZMOD 2 ^ min bits 64] := by
  have hpos : (0 : Int) < 2 ^ min bits 64 := Int.pow_pos (by decide)
  rw [toNat_zeroExtend_eq_emod, Nat.cast_pow, Nat.cast_ofNat]
  constructor
  · rintro rfl
    exact ⟨Int.emod_nonneg _ (Int.ne_of_gt hpos), Int.emod_lt_of_pos _ hpos, Int.mod_modEq _ _⟩
  · rintro ⟨hlower, hupper, hmod⟩
    rw [← hmod, Int.emod_eq_of_lt hlower hupper]

theorem signExtend_zeroExtend (bits : Nat) (v : Int64) :
    signExtend bits (zeroExtend bits v).toInt64 = signExtend bits v := by
  have hle : min bits 64 ≤ 64 := Nat.min_le_right bits 64
  rw [signExtend, UInt64.toBitVec_toInt64, zeroExtend, UInt64.toBitVec_ofBitVec,
    BitVec.setWidth_setWidth_of_le _ hle, BitVec.setWidth_eq, signExtend]

theorem zeroExtend_signExtend (bits : Nat) (v : Int64) :
    zeroExtend bits (signExtend bits v) = zeroExtend bits v := by
  apply UInt64.toNat_inj.mp
  apply Int.ofNat_inj.mp
  rw [toNat_zeroExtend_eq_emod, toNat_zeroExtend_eq_emod, toInt_signExtend, Int.bmod_emod]

/-- Each extension gives the one representative in its interval, at width 0 and beyond the width of
a word too.  Of two extensions by the sign the smaller width counts, and an extension after one of
the other kind is as good as an extension of the word itself. -/
theorem extensions_pick_representatives (bits : Nat) (v : Int64) :
    signExtend 0 v = 0 ∧ (64 ≤ bits → signExtend bits v = v) ∧
    (0 < bits → ∀ n : Int, n = (signExtend bits v).toInt ↔
      -2 ^ (bits - 1) ≤ n ∧ n ≤ 2 ^ (bits - 1) - 1 ∧ n ≡ v.toInt [ZMOD 2 ^ bits]) ∧
    (∀ n : Int, n = (zeroExtend bits v).toNat ↔
      0 ≤ n ∧ n < 2 ^ min bits 64 ∧ n ≡ v.toInt [ZMOD 2 ^ min bits 64]) ∧
    (∀ bits', signExtend bits' (signExtend bits v) = signExtend (min bits bits') v) ∧
    signExtend bits (zeroExtend bits v).toInt64 = signExtend bits v ∧
    zeroExtend bits (signExtend bits v) = zeroExtend bits v := by
  refine ⟨signExtend_of_width_zero v, fun h ↦ signExtend_of_le h v,
    fun h n ↦ eq_signExtend_iff_of_pos h, fun n ↦ eq_zeroExtend_iff,
    fun bits' ↦ signExtend_signExtend_min bits bits' v, signExtend_zeroExtend bits v,
    zeroExtend_signExtend bits v⟩

/-- At width 63 the word `2 ^ 62` stands for the least integer; at width 70 it stands for itself. -/
theorem extensions_pick_representatives_least :
    let v : Int64 := 4611686018427387904
    0 < 63 ∧ 64 ≤ 70 ∧ -4611686018427387904 = (signExtend 63 v).toInt ∧ signExtend 70 v = v := by
  intro v
  have hpos : 0 < 63 := by decide
  have hwide : 64 ≤ 70 := by decide
  have hv : v.toInt = 4611686018427387904 := by decide
  obtain ⟨-, -, hrepresentative, -⟩ := extensions_pick_representatives 63 v
  obtain ⟨-, hword, -⟩ := extensions_pick_representatives 70 v
  refine ⟨hpos, hwide, (hrepresentative hpos _).mpr ?_, hword hwide⟩
  rw [hv]
  exact ⟨by omega, by omega, by decide +kernel⟩

end DivGuard
