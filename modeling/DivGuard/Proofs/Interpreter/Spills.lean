import DivGuard.Proofs.Integer.Quotient
import DivGuard.Proofs.Interpreter.Faults

/-!
# Divisions that leave their width

Below the width of a word only one width extends its results again.  At the others a result can fit
the word without fitting the width: an unsigned one that reaches the sign bit, and the signed
quotient of the least integer by `-1` where the machine does not fault on it.
-/

namespace DivGuard.Divide

variable {q : Divide} {target : Target} {v : Int64}

/-- The instruction leaves a result that does not fit the width. -/
def Spills (q : Divide) (target : Target) : Prop :=
  q.bits < 64 ∧ q.bits ≠ 32 ∧ signExtend q.bits q.divisor ≠ 0 ∧
    match q.op with
    | .sdiv => target.arch.faultsOnZero = false ∧ q.dividend = leastInt q.bits ∧ q.divisor = -1
    | .srem => False
    | .udiv | .urem => 2 ^ q.bits ≤
        2 * q.op.onInts (zeroExtend q.bits q.dividend).toNat (zeroExtend q.bits q.divisor).toNat

instance : (q : Divide) → (target : Target) → Decidable (q.Spills target)
  | ⟨.sdiv, _, _, _⟩, _ | ⟨.srem, _, _, _⟩, _ => inferInstanceAs (Decidable (_ ∧ _ ∧ _ ∧ _))
  | ⟨.udiv, _, _, _⟩, _ | ⟨.urem, _, _, _⟩, _ => inferInstanceAs (Decidable (_ ∧ _ ∧ _ ∧ _))

theorem outcome_of_zero (h : signExtend q.bits q.divisor = 0) :
    q.outcome target = if target.arch.faultsOnZero then .trap else .value 0 :=
  target.divide_of_signExtend q.op q.dividend h

theorem outcome_of_fold (hzero : signExtend q.bits q.divisor ≠ 0)
    (hfits : target.arch.faultsOnZero = true → ¬q.Overflows) :
    ∃ v, q.op.fold q.bits q.dividend q.divisor = some v ∧ q.outcome target = .value v := by
  have hsound : ¬(target.arch.faultsOnZero && q.op.isSigned &&
      signExtend q.bits q.dividend == leastInt q.bits &&
        signExtend q.bits q.divisor == -1) = true := by
    intro hover
    simp only [Bool.and_eq_true, beq_iff_eq] at hover
    exact hfits hover.1.1.1 ⟨hover.1.1.2, hover.1.2, hover.2⟩
  cases hfold : q.op.fold q.bits q.dividend q.divisor with
  | none => exact absurd (DivOp.signExtend_of_fold_eq_none hfold) hzero
  | some v =>
      refine ⟨v, rfl, ?_⟩
      unfold outcome Target.divide
      rw [if_neg hzero, if_neg hsound, hfold]

/-- A value is the zero that a machine without faults makes of a zero divisor, or a folded one. -/
theorem value_cases (h : q.outcome target = .value v) :
    (signExtend q.bits q.divisor = 0 ∧ v = 0) ∨
    (signExtend q.bits q.divisor ≠ 0 ∧ (target.arch.faultsOnZero = true → ¬q.Overflows) ∧
      q.op.fold q.bits q.dividend q.divisor = some v) := by
  by_cases hzero : signExtend q.bits q.divisor = 0
  · rw [outcome_of_zero hzero] at h
    split at h
    · cases h
    · exact .inl ⟨hzero, (Outcome.value.inj h).symm⟩
  · have hfits : target.arch.faultsOnZero = true → ¬q.Overflows := by
      intro hfaults hoverflows
      rw [outcome_of_faults hfaults (.inr hoverflows)] at h
      cases h
    obtain ⟨v', hfold, hvalue⟩ := outcome_of_fold hzero hfits
    obtain rfl := Outcome.value.inj (h.symm.trans hvalue)
    exact .inr ⟨hzero, hfits, hfold⟩

/-- The least integer of the width over `-1`, as it is met by a divide instruction that does not
fault on it. -/
theorem least_by_minus_one_iff (hop : q.op = .sdiv) (hpos : 0 < q.bits)
    (hfits : target.arch.faultsOnZero = true → ¬q.Overflows) :
    (q.dividend.toInt * 2 = -((2 ^ min q.bits 64 : Nat) : Int) ∧ q.divisor.toInt = -1) ↔
      target.arch.faultsOnZero = false ∧ q.dividend = leastInt q.bits ∧ q.divisor = -1 := by
  have hone : (-1 : Int64).toInt = -1 := by decide
  constructor
  · rintro ⟨hdividend, hdivisor⟩
    have hleast : q.dividend = leastInt q.bits := by
      apply Int64.toInt_inj.mp
      have htwice := toInt_leastInt_mul_two hpos
      omega
    have hminus : q.divisor = -1 := Int64.toInt_inj.mp (hdivisor.trans hone.symm)
    refine ⟨?_, hleast, hminus⟩
    rw [Bool.eq_false_iff]
    intro hfaults
    refine hfits hfaults ⟨by rw [hop]; rfl, ?_, ?_⟩
    · rw [hleast, signExtend_leastInt]
    · rw [hminus, signExtend_neg_one hpos]
  · rintro ⟨-, hdividend, hdivisor⟩
    rw [hdividend, hdivisor]
    exact ⟨toInt_leastInt_mul_two hpos, hone⟩

theorem exists_value_of_spills (h : q.Spills target) : ∃ v, q.outcome target = .value v := by
  obtain ⟨hlt, h32, hzero, hop⟩ := h
  have hfits : target.arch.faultsOnZero = true → ¬q.Overflows := by
    rintro hfaults ⟨hsigned, -, -⟩
    revert hop hsigned
    cases q.op with
    | sdiv => simp [hfaults]
    | srem => simp
    | udiv | urem => simp [DivOp.isSigned]
  obtain ⟨v, -, hvalue⟩ := outcome_of_fold hzero hfits
  exact ⟨v, hvalue⟩

/-- What the instruction leaves is extended from the width of the dividend unless it spills. -/
theorem signExtend_eq_self_iff (hdividend : signExtend q.bits q.dividend = q.dividend)
    (h : q.outcome target = .value v) : signExtend q.bits v = v ↔ ¬q.Spills target := by
  rcases value_cases h with ⟨hzero, rfl⟩ | ⟨hzero, hfits, hfold⟩
  · simp [Spills, hzero]
  rcases Nat.lt_or_ge q.bits 64 with hlt | hge
  · by_cases h32 : q.bits = 32
    · have hnormal : signExtend 32 v = v := by
        rw [h32] at hfold
        rw [DivGuard.signExtend_eq_self_iff, DivOp.toInt_of_fold_32 hfold]
        exact fitsWidth_bmod (by decide) _
      simp [Spills, h32, hnormal]
    · have hpos : 0 < q.bits := pos_of_signExtend_ne_zero hzero
      rw [DivGuard.signExtend_eq_self_iff, DivOp.toInt_of_fold_of_lt hlt h32 hdividend hfold]
      have hword : FitsWidth q.bits q.dividend.toInt := DivGuard.signExtend_eq_self_iff.mp hdividend
      rw [Spills, and_iff_right hlt, and_iff_right h32, and_iff_right hzero]
      cases hop : q.op with
      | sdiv => exact hword.tdiv_iff.trans (not_congr (least_by_minus_one_iff hop hpos hfits))
      | srem => exact iff_of_true (hword.tmod _) not_false
      | udiv | urem =>
          apply FitsWidth.iff_of_nonneg hlt.le
          apply DivOp.onInts_nonneg
          · exact Int.natCast_nonneg _
          · exact Int.natCast_nonneg _
  · have hword : signExtend q.bits v = v := signExtend_of_le hge v
    simp [Spills, hword, Nat.not_lt.mpr hge]

end DivGuard.Divide
