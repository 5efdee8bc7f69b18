import DivGuard.Proofs.Integer.Quotient
import DivGuard.Proofs.Integer.Residues

/-!
# Division up to a power of two

Operands that are reduced to a width are divided as integers.  The word that comes of it at the
width is the exact result up to a multiple of the power of two; only at width 32 and where whole
words are divided is it always the one that is extended from the width.
-/

namespace DivGuard

variable {bits : Nat} {x y v : Int64} {op : DivOp}

/-- A word reduced to a width: by the sign for signed operations, to a natural number for others. -/
def DivOp.reduce (op : DivOp) (bits : Nat) (v : Int64) : Int :=
  if op.isSigned then v.toInt.bmod (2 ^ bits) else v.toInt % 2 ^ bits

theorem DivOp.read_signExtend (op : DivOp) (h : bits ≤ 64) (v : Int64) :
    op.read bits (signExtend bits v) = op.reduce bits v := by
  unfold read reduce
  split
  · rw [signExtend_signExtend, toInt_signExtend_eq_bmod]
  · rw [zeroExtend_signExtend, toNat_zeroExtend_eq_emod, Nat.min_eq_left h, Nat.cast_pow,
      Nat.cast_ofNat]

theorem DivOp.reduce_eq_zero_iff (op : DivOp) :
    op.reduce bits v = 0 ↔ signExtend bits v = 0 := by
  have hword : signExtend bits v = 0 ↔ v.toInt.bmod (2 ^ bits) = 0 := by
    rw [← Int64.toInt_inj, toInt_signExtend_eq_bmod]
    rfl
  rw [hword, ← Int.dvd_iff_bmod_eq_zero]
  unfold reduce
  split
  · exact Int.dvd_iff_bmod_eq_zero.symm
  · push_cast
    exact Int.dvd_iff_emod_eq_zero.symm

/-! ## Folding -/

/-- Outside width 32 only the zero word counts as zero, so there the divisor has to be extended from
the width. -/
theorem DivOp.fold_eq_none_iff (h : bits = 32 ∨ signExtend bits y = y) :
    op.fold bits x y = none ↔ signExtend bits y = 0 := by
  refine ⟨signExtend_of_fold_eq_none, fun hzero ↦ ?_⟩
  unfold fold
  by_cases h32 : bits = 32
  · subst h32
    rw [if_pos rfl, Option.map_eq_none_iff, divide?_eq_none_iff]
    exact signExtend_eq_zero_iff.mp hzero
  · obtain rfl : y = 0 := (h.resolve_left h32).symm.trans hzero
    rw [if_neg h32]
    split
    · rw [Option.map_eq_none_iff, divide?_eq_none_iff]
      rfl
    · rw [Option.map_eq_none_iff, divide?_eq_none_iff]
      simp [zeroExtend]

/-- The operation over the integers, on the operands as it reads them at a width, and of the result
the integer of the width that differs from it by a multiple of the power of two. -/
def DivOp.onWidth (op : DivOp) (bits : Nat) (x y : Int64) : Int :=
  (op.onInts (op.read bits x) (op.read bits y)).bmod (2 ^ min bits 64)

theorem DivOp.toInt_signExtend_of_fold
    (h : bits = 32 ∨ signExtend bits x = x ∧ signExtend bits y = y)
    (hfold : op.fold bits x y = some v) : (signExtend bits v).toInt = op.onWidth bits x y := by
  rw [toInt_signExtend, onWidth]
  by_cases h32 : bits = 32
  · subst h32
    rw [toInt_of_fold_32 hfold]
    exact Int.bmod_bmod
  · obtain ⟨hx, hy⟩ := h.resolve_left h32
    have hdvd : 2 ^ min bits 64 ∣ 2 ^ 64 := Nat.pow_dvd_pow 2 (Nat.min_le_right bits 64)
    rw [toInt_of_fold h32 hfold, Int.bmod_bmod_of_dvd hdvd, op.readWord_of_signExtend hx,
      op.readWord_of_signExtend hy]

theorem DivOp.signExtend_of_fold (hbits : bits = 32 ∨ 64 ≤ bits)
    (hfold : op.fold bits x y = some v) : signExtend bits v = v := by
  rcases hbits with rfl | hwhole
  · rw [signExtend_eq_self_iff, toInt_of_fold_32 hfold]
    exact fitsWidth_bmod (by decide) _
  · exact signExtend_of_le hwhole v

/-- What a division of words that are extended from the width leaves is the quotient or remainder of
the reduced operands, up to a multiple of the power of two. -/
theorem DivOp.fold_modEq (h : bits ≤ 64)
    (hfold : op.fold bits (signExtend bits x) (signExtend bits y) = some v) :
    v.toInt ≡ op.onInts (op.reduce bits x) (op.reduce bits y) [ZMOD 2 ^ bits] := by
  have hv : (signExtend bits v).toInt = op.onWidth bits (signExtend bits x) (signExtend bits y) :=
    toInt_signExtend_of_fold (.inr ⟨signExtend_signExtend bits x, signExtend_signExtend bits y⟩)
      hfold
  rw [toInt_signExtend_eq_bmod, onWidth, Nat.min_eq_left h, op.read_signExtend h,
    op.read_signExtend h] at hv
  have hmod := congrArg (· % ((2 ^ bits : Nat) : Int)) hv
  simp only [Int.bmod_emod] at hmod
  exact_mod_cast hmod

/-- The quotient of the least integer by `-1` is one more than the greatest and wraps around. -/
theorem DivOp.onWidth_least_by_minus_one (hx : signExtend bits x = leastInt bits)
    (hy : signExtend bits y = -1) :
    DivOp.sdiv.onWidth bits x y = (leastInt bits).toInt ∧ DivOp.srem.onWidth bits x y = 0 := by
  have hone : (-1 : Int64).toInt = -1 := by decide
  have hpos : 0 < bits := pos_of_signExtend_ne_zero (by rw [hy]; decide)
  have hleast := toInt_leastInt_mul_two hpos
  have hpow : 0 < 2 ^ min bits 64 := Nat.two_pow_pos _
  have hread : ∀ op : DivOp, op.isSigned = true →
      op.read bits x = (leastInt bits).toInt ∧ op.read bits y = -1 := by
    intro op hsigned
    simp [read, hsigned, hx, hy, hone]
  obtain ⟨hdividend, hdivisor⟩ := hread .sdiv rfl
  obtain ⟨hdividend', hdivisor'⟩ := hread .srem rfl
  constructor
  · have hwrap : (-(leastInt bits).toInt).bmod (2 ^ min bits 64) = (leastInt bits).toInt := by
      rw [← Int.sub_bmod_right, Int.bmod_eq_of_le_mul_two] <;> omega
    rw [onWidth, hdividend, hdivisor, onInts, Int.tdiv_neg, Int.tdiv_one, hwrap]
  · rw [onWidth, hdividend', hdivisor', onInts, Int.tmod_neg, Int.tmod_one, Int.zero_bmod]

/-- Folding fails on a divisor that is zero at the width, and on no other.  What it gives is, at the
width, the exact quotient or remainder.  Operands may be any words at width 32 and where whole words
are divided; at other widths they are extended from the width. -/
theorem DivOp.fold_onWidth (op : DivOp) (bits : Nat) (x y : Int64)
    (h : bits = 32 ∨ 64 ≤ bits ∨ signExtend bits x = x ∧ signExtend bits y = y) :
    (op.fold bits x y = none ↔ signExtend bits y = 0) ∧
      (signExtend bits y ≠ 0 → ∃ v, op.fold bits x y = some v ∧
        (signExtend bits v).toInt = op.onWidth bits x y ∧
        (bits = 32 ∨ 64 ≤ bits → signExtend bits v = v) ∧
        (signExtend bits x = leastInt bits → signExtend bits y = -1 →
          (op = .sdiv → signExtend bits v = leastInt bits) ∧
            (op = .srem → signExtend bits v = 0))) := by
  have hnormal : bits = 32 ∨ signExtend bits x = x ∧ signExtend bits y = y := by
    rcases h with h32 | hwhole | hnormal
    · exact .inl h32
    · exact .inr ⟨signExtend_of_le hwhole x, signExtend_of_le hwhole y⟩
    · exact .inr hnormal
  have hnone : op.fold bits x y = none ↔ signExtend bits y = 0 :=
    fold_eq_none_iff (hnormal.imp_right And.right)
  refine ⟨hnone, fun hzero ↦ ?_⟩
  obtain ⟨v, hfold⟩ := Option.ne_none_iff_exists'.mp (hzero ∘ hnone.mp)
  have hv : (signExtend bits v).toInt = op.onWidth bits x y :=
    toInt_signExtend_of_fold hnormal hfold
  refine ⟨v, hfold, hv, fun hbits ↦ signExtend_of_fold hbits hfold, fun hx hy ↦ ?_⟩
  obtain ⟨hquotient, hremainder⟩ := onWidth_least_by_minus_one hx hy
  constructor
  · rintro rfl
    exact Int64.toInt_inj.mp (hv.trans hquotient)
  · rintro rfl
    exact Int64.toInt_inj.mp (hv.trans hremainder)

/-- The least octet over `-1` is held in a word as 128, which is the least octet again. -/
theorem DivOp.fold_onWidth_least_octet :
    (signExtend 8 (-128) = -128 ∧ signExtend 8 (-1) = -1) ∧ signExtend 8 (-1) ≠ 0 ∧
      signExtend 8 (-128) = leastInt 8 ∧
      ∃ v, DivOp.sdiv.fold 8 (-128) (-1) = some v ∧
        (signExtend 8 v).toInt = DivOp.sdiv.onWidth 8 (-128) (-1) ∧ signExtend 8 v = leastInt 8 := by
  have hnormal : signExtend 8 (-128) = -128 ∧ signExtend 8 (-1) = -1 := by decide
  have hzero : signExtend 8 (-1) ≠ 0 := by decide
  have hleast : signExtend 8 (-128) = leastInt 8 := by decide
  obtain ⟨v, hfold, hv, -, hover⟩ :=
    (fold_onWidth .sdiv 8 (-128) (-1) (.inr (.inr hnormal))).2 hzero
  exact ⟨hnormal, hzero, hleast, v, hfold, hv, (hover hleast hnormal.2).1 rfl⟩

end DivGuard
