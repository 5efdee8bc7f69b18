import DivGuard.Inspect.Options
import Mathlib.Data.List.Basic

/-!
# Reading decimals back

What is printed for an integer is read as that integer.
-/

namespace DivGuard.Text

theorem isDigit_of_mem_toDigits {n : Nat} {c : Char} (h : c ∈ Nat.toDigits 10 n) :
    c.isDigit = true :=
  Nat.isDigit_of_mem_toDigits (by decide) (by decide) h

theorem mapM_digitValue? {cs : List Char} (h : ∀ c ∈ cs, c.isDigit = true) :
    cs.mapM digitValue? = some (cs.map fun c ↦ c.toNat - '0'.toNat) := by
  induction cs with
  | nil => rfl
  | cons c cs ih =>
      rw [List.forall_mem_cons] at h
      simp [List.mapM_cons, digitValue?, h.1, ih h.2]

theorem natOfDigits?_toDigits (n : Nat) : natOfDigits? (Nat.toDigits 10 n) = some n := by
  have hvalue :
      (Nat.toDigits 10 n).foldl (fun sofar c ↦ 10 * sofar + (c.toNat - '0'.toNat)) 0 = n :=
    Nat.ofDigitChars_ten_toDigits
  rw [natOfDigits?, if_neg (by simp [Nat.toDigits_ne_nil]),
    mapM_digitValue? fun c ↦ isDigit_of_mem_toDigits, Option.map_some, List.foldl_map, hvalue]

theorem intOfDecimal?_toDigits (n : Nat) : intOfDecimal? (Nat.toDigits 10 n) = some (n : Int) := by
  have hread : (natOfDigits? (Nat.toDigits 10 n)).map Int.ofNat = some (n : Int) := by
    rw [natOfDigits?_toDigits]
    rfl
  have hdigit : ∀ c ∈ Nat.toDigits 10 n, c.isDigit = true := fun c ↦ isDigit_of_mem_toDigits
  unfold intOfDecimal?
  split
  · next digits heq => exact absurd (hdigit '-' (by simp [heq])) (by decide)
  · next digits heq => exact absurd (hdigit '+' (by simp [heq])) (by decide)
  · exact hread

theorem intOfDecimal?_toString (n : Int) : intOfDecimal? (toString n).toList = some n := by
  rw [Int.toString_eq_repr, Int.repr_eq_if]
  split
  · next hn =>
    rw [Nat.toList_repr, intOfDecimal?_toDigits, Int.toNat_of_nonneg hn]
  · next hn =>
    have hmark : ("-" ++ (-n).toNat.repr).toList = '-' :: Nat.toDigits 10 (-n).toNat := by
      rw [String.toList_append, Nat.toList_repr]
      rfl
    have hread : intOfDecimal? ('-' :: Nat.toDigits 10 (-n).toNat) =
        some (-((-n).toNat : Int)) := by
      rw [intOfDecimal?, natOfDigits?_toDigits]
      rfl
    rw [hmark, hread]
    exact congrArg some (by omega)

theorem wordOfDecimal?_toString (v : Int64) : wordOfDecimal? (toString v) = some v := by
  have hread : intOfDecimal? (toString v).toList = some v.toInt := intOfDecimal?_toString v.toInt
  have hfits : Int64.minValue.toInt ≤ v.toInt ∧ v.toInt ≤ Int64.maxValue.toInt :=
    ⟨v.minValue_le_toInt, v.toInt_le⟩
  simp only [wordOfDecimal?, hread]
  rw [if_pos hfits, Int64.ofInt_toInt]

end DivGuard.Text

namespace DivGuard.Inspect

theorem toInt_bounds_iff {n : Int64} : 1 ≤ n ∧ n ≤ 64 ↔ 1 ≤ n.toInt ∧ n.toInt ≤ 64 := by
  have hone : Int64.toInt 1 = 1 := by decide
  have hmost : Int64.toInt 64 = 64 := by decide
  rw [Int64.le_iff_toInt_le, Int64.le_iff_toInt_le, hone, hmost]

theorem widthOfDecimal?_toString {bits : Nat} (hpos : 1 ≤ bits) (hle : bits ≤ 64) :
    widthOfDecimal? (toString bits) = some bits := by
  have hvalue : (Int64.ofInt bits).toInt = bits :=
    Int64.toInt_ofInt_of_le (by omega) (by omega)
  have hfits : Int64.minValue.toInt ≤ bits ∧ bits ≤ Int64.maxValue.toInt := by
    rw [← hvalue]
    exact ⟨Int64.minValue_le_toInt _, Int64.toInt_le _⟩
  have hword : Text.wordOfDecimal? (toString bits) = some (.ofInt bits) := by
    rw [Text.wordOfDecimal?, Nat.toString_eq_repr, Nat.toList_repr, Text.intOfDecimal?_toDigits]
    exact if_pos hfits
  have hbounds : 1 ≤ Int64.ofInt bits ∧ Int64.ofInt bits ≤ 64 := by
    rw [toInt_bounds_iff, hvalue]
    omega
  simp only [widthOfDecimal?, hword]
  rw [if_pos hbounds, hvalue, Int.toNat_natCast]

theorem bounds_of_widthOfDecimal? {text : String} {bits : Nat}
    (h : widthOfDecimal? text = some bits) : 1 ≤ bits ∧ bits ≤ 64 := by
  unfold widthOfDecimal? at h
  split at h
  · cases h
  · next n _ =>
    split at h
    · next hbounds =>
      obtain rfl := Option.some.inj h
      rw [toInt_bounds_iff] at hbounds
      omega
    · cases h

end DivGuard.Inspect
