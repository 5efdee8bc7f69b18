import DivGuard.Heap.ArrayLayout
import DivGuard.Proofs.Integer.Extension

/-!
# Offsets of array elements

A displacement decodes to an index just if it is the offset of the element with that index, counted
over the integers, and the distance from element 0 fits a word.  Decoding divides words, which can
run over or meet a zero divisor; its tests come in an order that lets neither happen.
-/

namespace DivGuard

/-! ## Words that are checked -/

namespace CheckedWord

variable {x y z : Int64}

inductive Fault where
  | overflow
  | zeroDivisor
  deriving DecidableEq, Repr

/-- The word for an exact result, which has to fit. -/
def ofExact (n : Int) : Except Fault Int64 :=
  if FitsWidth 64 n then .ok (.ofInt n) else .error .overflow

def difference (x y : Int64) : Except Fault Int64 := ofExact (x.toInt - y.toInt)

def quotient (x y : Int64) : Except Fault Int64 :=
  if y = 0 then .error .zeroDivisor else ofExact (x.toInt.tdiv y.toInt)

/-- The remainder comes with the quotient and faults where the quotient does. -/
def remainder (x y : Int64) : Except Fault Int64 :=
  (quotient x y).map fun _ ↦ .ofInt (x.toInt.tmod y.toInt)

theorem fitsWidth_word_iff {n : Int} : FitsWidth 64 n ↔ -2 ^ 63 ≤ n ∧ n < 2 ^ 63 := by
  rw [FitsWidth, Nat.min_self]
  omega

theorem ofExact_eq_ok_iff {n : Int} : ofExact n = .ok z ↔ z.toInt = n := by
  unfold ofExact
  split
  · next hfits =>
    obtain ⟨hlower, hupper⟩ := fitsWidth_word_iff.mp hfits
    rw [Except.ok.injEq, ← Int64.toInt_inj, Int64.toInt_ofInt_of_le hlower hupper, eq_comm]
  · next hfits =>
    refine iff_of_false (by simp) ?_
    rintro rfl
    exact hfits (fitsWidth_word_iff.mpr ⟨z.le_toInt, z.toInt_lt⟩)

theorem difference_eq_ok_iff : difference x y = .ok z ↔ z.toInt = x.toInt - y.toInt :=
  ofExact_eq_ok_iff

theorem toInt_div_of_nonneg (hx : 0 ≤ x.toInt) : (x / y).toInt = x.toInt / y.toInt := by
  have hleast : x ≠ Int64.minValue := by
    rintro rfl
    exact absurd hx (by decide)
  rw [Int64.toInt_div_of_ne_left x y hleast, Int.tdiv_eq_ediv_of_nonneg hx]

/-- Nothing goes wrong where a natural number is divided by a positive one. -/
theorem quotient_of_pos (hx : 0 ≤ x.toInt) (hy : 0 < y.toInt) : quotient x y = .ok (x / y) := by
  have hdivisor : y ≠ 0 := by
    rintro rfl
    exact absurd hy (by decide)
  rw [quotient, if_neg hdivisor, ofExact_eq_ok_iff, toInt_div_of_nonneg hx,
    Int.tdiv_eq_ediv_of_nonneg hx]

theorem remainder_of_pos (hx : 0 ≤ x.toInt) (hy : 0 < y.toInt) : remainder x y = .ok (x % y) := by
  rw [remainder, quotient_of_pos hx hy, ← Int64.toInt_mod, Int64.ofInt_toInt]
  rfl

end CheckedWord

namespace Heap.ArrayLayout

variable {layout : ArrayLayout} {displacement distance : Int64} {i : Nat}

/-- Decoding by checked words.  Only the overflow of the distance is an answer; any other fault is
passed on, and an index below zero is refused. -/
def decode (layout : ArrayLayout) (displacement : Int64) :
    Except CheckedWord.Fault (Option Nat) :=
  match CheckedWord.difference displacement layout.baseOffset with
  | .error _ => .ok none
  | .ok distance =>
    if distance < 0 ∨ layout.indexScale ≤ 0 then .ok none
    else do
      let rest ← CheckedWord.remainder distance layout.indexScale
      if rest ≠ 0 then return none
      let index ← CheckedWord.quotient distance layout.indexScale
      return if index < 0 then none else some index.toInt.toNat

theorem distance?_eq_some_iff :
    layout.distance? displacement = some distance ↔
      distance.toInt = displacement.toInt - layout.baseOffset.toInt := by
  have hover : displacement.toBitVec.ssubOverflow layout.baseOffset.toBitVec = true ↔
      ¬(-2 ^ 63 ≤ displacement.toInt - layout.baseOffset.toInt ∧
        displacement.toInt - layout.baseOffset.toInt < 2 ^ 63) := by
    simp only [BitVec.ssubOverflow, Int64.toInt_toBitVec, ge_iff_le, Bool.or_eq_true,
      decide_eq_true_eq]
    omega
  unfold distance?
  split
  · next hoverflow =>
    refine iff_of_false (by simp) fun heq ↦ hover.mp hoverflow ?_
    rw [← heq]
    exact ⟨distance.le_toInt, distance.toInt_lt⟩
  · next hfits =>
    rw [hover, not_not] at hfits
    rw [Option.some.injEq, ← Int64.toInt_inj, Int64.toInt_sub,
      Int.bmod_eq_of_le_mul_two (by omega) (by omega), eq_comm]

/-- The tests on the sign let a natural number and a positive one pass. -/
theorem not_guard_iff (distance scale : Int64) :
    ¬(distance < 0 ∨ scale ≤ 0) ↔ 0 ≤ distance.toInt ∧ 0 < scale.toInt := by
  rw [not_or, Int64.lt_iff_toInt_lt, Int64.le_iff_toInt_le, Int64.toInt_zero, not_lt, not_le]

theorem indexAt?_of_refused (h : layout.distance? displacement = some distance)
    (hguard : distance < 0 ∨ layout.indexScale ≤ 0) : layout.indexAt? displacement = none := by
  simp [indexAt?, h, ← or_assoc, hguard]

theorem indexAt?_of_accepted (h : layout.distance? displacement = some distance)
    (hguard : ¬(distance < 0 ∨ layout.indexScale ≤ 0)) :
    layout.indexAt? displacement =
      if distance % layout.indexScale = 0 then some (distance / layout.indexScale).toInt.toNat
      else none := by
  simp only [indexAt?, h, ← or_assoc, hguard, false_or, ne_eq, ite_not]

/-- Where the distance fits a word, an index is the quotient and nothing remains. -/
theorem indexAt?_of_distance (h : layout.distance? displacement = some distance) :
    layout.indexAt? displacement = some i ↔
      0 < layout.indexScale.toInt ∧ distance.toInt = i * layout.indexScale.toInt := by
  by_cases hguard : distance < 0 ∨ layout.indexScale ≤ 0
  · rw [indexAt?_of_refused h hguard]
    refine iff_of_false (by simp) ?_
    rintro ⟨hscale, hdistance⟩
    refine (not_guard_iff distance layout.indexScale).mpr ⟨?_, hscale⟩ hguard
    rw [hdistance]
    exact Int.mul_nonneg (Int.natCast_nonneg i) hscale.le
  · obtain ⟨hdistance, hscale⟩ := (not_guard_iff distance layout.indexScale).mp hguard
    have hquotient : 0 ≤ distance.toInt / layout.indexScale.toInt :=
      Int.ediv_nonneg hdistance hscale.le
    rw [indexAt?_of_accepted h hguard, Option.ite_none_right_eq_some, Option.some.injEq,
      ← Int64.toInt_inj, Int64.toInt_mod, Int64.toInt_zero, Int.tmod_eq_emod_of_nonneg hdistance,
      CheckedWord.toInt_div_of_nonneg hdistance]
    constructor
    · rintro ⟨hrest, rfl⟩
      rw [Int.toNat_of_nonneg hquotient, Int.ediv_mul_cancel (Int.dvd_of_emod_eq_zero hrest)]
      exact ⟨hscale, rfl⟩
    · rintro ⟨-, hi⟩
      rw [hi, Int.mul_emod_left, Int.mul_ediv_cancel _ hscale.ne', Int.toNat_natCast]
      exact ⟨rfl, rfl⟩

theorem indexAt?_eq_some_iff :
    layout.indexAt? displacement = some i ↔
      0 < layout.indexScale.toInt ∧
        displacement.toInt - layout.baseOffset.toInt ≤ Int64.maxValue.toInt ∧
        displacement.toInt = layout.baseOffset.toInt + i * layout.indexScale.toInt := by
  have hmax := Int64.toInt_maxValue
  cases hdistance : layout.distance? displacement with
  | none =>
      -- A distance that does not fit is too long or below zero.
      refine iff_of_false (by simp [indexAt?, hdistance]) ?_
      rintro ⟨hscale, hle, hdisplacement⟩
      have hproduct : 0 ≤ (i : Int) * layout.indexScale.toInt :=
        Int.mul_nonneg (Int.natCast_nonneg i) hscale.le
      have hword : (Int64.ofInt (displacement.toInt - layout.baseOffset.toInt)).toInt =
          displacement.toInt - layout.baseOffset.toInt :=
        Int64.toInt_ofInt_of_le (by omega) (by omega)
      rw [distance?_eq_some_iff.mpr hword] at hdistance
      cases hdistance
  | some distance =>
      have hexact := distance?_eq_some_iff.mp hdistance
      have hbound := distance.toInt_lt
      rw [indexAt?_of_distance hdistance]
      omega

/-- Each index has one offset. -/
theorem toInt_eq_of_indexAt? (h : layout.indexAt? displacement = some i) :
    displacement.toInt = layout.baseOffset.toInt + i * layout.indexScale.toInt :=
  (indexAt?_eq_some_iff.mp h).2.2

/-- The elements of an array with a positive scale are found at their offsets. -/
theorem indexAt?_offset (hdistance : FitsWidth 64 (i * layout.indexScale.toInt))
    (hoffset : FitsWidth 64 (layout.baseOffset.toInt + i * layout.indexScale.toInt)) :
    layout.indexAt? (.ofInt (layout.baseOffset.toInt + i * layout.indexScale.toInt)) = some i ↔
      0 < layout.indexScale := by
  have hmax := Int64.toInt_maxValue
  obtain ⟨-, hbound⟩ := CheckedWord.fitsWidth_word_iff.mp hdistance
  obtain ⟨hlower, hupper⟩ := CheckedWord.fitsWidth_word_iff.mp hoffset
  rw [indexAt?_eq_some_iff, Int64.toInt_ofInt_of_le hlower hupper, Int64.lt_iff_toInt_lt,
    Int64.toInt_zero]
  omega

/-- No fault is left to pass on. -/
theorem decode_eq_indexAt? (layout : ArrayLayout) (displacement : Int64) :
    layout.decode displacement = .ok (layout.indexAt? displacement) := by
  cases hdistance : layout.distance? displacement with
  | none =>
      have hrefused : ∀ z, CheckedWord.difference displacement layout.baseOffset ≠ .ok z := by
        intro z hz
        rw [CheckedWord.difference_eq_ok_iff, ← distance?_eq_some_iff, hdistance] at hz
        cases hz
      simp only [indexAt?, hdistance, decode]
      split
      · rfl
      · next z hz => exact absurd hz (hrefused z)
  | some distance =>
      have hdifference : CheckedWord.difference displacement layout.baseOffset = .ok distance :=
        CheckedWord.difference_eq_ok_iff.mpr (distance?_eq_some_iff.mp hdistance)
      simp only [decode, hdifference]
      by_cases hguard : distance < 0 ∨ layout.indexScale ≤ 0
      · rw [if_pos hguard, indexAt?_of_refused hdistance hguard]
      · obtain ⟨hnonneg, hscale⟩ := (not_guard_iff distance layout.indexScale).mp hguard
        have hindex : ¬distance / layout.indexScale < 0 := by
          rw [Int64.lt_iff_toInt_lt, CheckedWord.toInt_div_of_nonneg hnonneg, not_lt]
          exact Int.ediv_nonneg hnonneg hscale.le
        rw [if_neg hguard, indexAt?_of_accepted hdistance hguard,
          CheckedWord.remainder_of_pos hnonneg hscale, CheckedWord.quotient_of_pos hnonneg hscale]
        simp only [bind, Except.bind, pure, Except.pure, ne_eq, ite_not, if_neg hindex]
        split <;> rfl

/-- A displacement decodes to an index just if it is the offset of the element with that index and
not too far from element 0, no word runs over or is divided by zero on the way, elements of positive
size are found at their offsets, and no two displacements have one index. -/
theorem indexAt?_decodes (layout : ArrayLayout) :
    (∀ (displacement : Int64) (i : Nat), layout.indexAt? displacement = some i ↔
      0 < layout.indexScale.toInt ∧
        displacement.toInt - layout.baseOffset.toInt ≤ Int64.maxValue.toInt ∧
        displacement.toInt = layout.baseOffset.toInt + i * layout.indexScale.toInt) ∧
    (∀ displacement, layout.decode displacement = .ok (layout.indexAt? displacement)) ∧
    (∀ i : Nat, FitsWidth 64 (i * layout.indexScale.toInt) →
      FitsWidth 64 (layout.baseOffset.toInt + i * layout.indexScale.toInt) →
      (layout.indexAt? (.ofInt (layout.baseOffset.toInt + i * layout.indexScale.toInt)) = some i ↔
        0 < layout.indexScale)) ∧
    ∀ (d d' : Int64) (i : Nat), layout.indexAt? d = some i → layout.indexAt? d' = some i →
      d = d' := by
  refine ⟨fun _ _ ↦ indexAt?_eq_some_iff, layout.decode_eq_indexAt?,
    fun _ ↦ indexAt?_offset, fun d d' i h h' ↦ Int64.toInt_inj.mp ?_⟩
  rw [toInt_eq_of_indexAt? h, toInt_eq_of_indexAt? h']

/-- Elements of eight bytes, with element 0 below the start that displacements are counted from. -/
theorem indexAt?_decodes_below_zero :
    let layout : ArrayLayout := ⟨-24, 8⟩
    layout.indexAt? (-8) = some 2 ∧ layout.decode (-8) = .ok (some 2) ∧
      (FitsWidth 64 (5 * 8) ∧ FitsWidth 64 (-24 + 5 * 8) ∧ layout.indexAt? 16 = some 5) ∧
      layout.indexAt? Int64.maxValue = none ∧
      ∀ d, layout.indexAt? d = some 2 → d = -8 := by
  intro layout
  obtain ⟨hindex, hdecode, hoffset, hinjective⟩ := layout.indexAt?_decodes
  have htwo : layout.indexAt? (-8) = some 2 := (hindex (-8) 2).mpr (by decide)
  have hdistance : FitsWidth 64 (5 * 8) := by decide
  have hsum : FitsWidth 64 (-24 + 5 * 8) := by decide
  refine ⟨htwo, (hdecode (-8)).trans (congrArg _ htwo), ⟨hdistance, hsum, ?_⟩, ?_, ?_⟩
  · exact (hoffset 5 hdistance hsum).mpr (by decide)
  · rw [Option.eq_none_iff_forall_ne_some]
    intro i hi
    exact absurd ((hindex _ i).mp hi).2.1 (by decide)
  · exact fun d hd ↦ hinjective d (-8) 2 hd htwo

end Heap.ArrayLayout

end DivGuard
