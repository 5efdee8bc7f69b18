import DivGuard.Proofs.Reference.RoundTrip

/-!
# Packing with guarded words

Packing and unpacking count with exact numbers.  A machine has 64-bit words, and each step on words
can go wrong in its own way: a distance below zero, a shift by more than a word, a shift that drops
bits, a sum that runs over, a number that is too long for a narrow reference.  Here each step is
guarded on its own.  A guarded step gives a word just if the exact result is that word, so the
guards together refuse and alter nothing that the exact numbers keep.
-/

namespace DivGuard

namespace GuardedWord

variable {x y z : UInt64} {n : Nat}

/-- The sum, unless it runs over: a sum that does is less than its summands. -/
def add? (x y : UInt64) : Option UInt64 :=
  if x + y < x then none else some (x + y)

def sub? (x y : UInt64) : Option UInt64 :=
  if x < y then none else some (x - y)

/-- The word shifted to the left, unless the shift drops a bit: shifting back shows whether. -/
def shiftLeft? (x : UInt64) (n : Nat) : Option UInt64 :=
  if n < 64 ∧ (x <<< n.toUInt64) >>> n.toUInt64 = x then some (x <<< n.toUInt64) else none

def shiftRight? (x : UInt64) (n : Nat) : Option UInt64 :=
  if n < 64 then some (x >>> n.toUInt64) else none

/-- The word in 32 bits, if it fits. -/
def narrow? (x : UInt64) : Option UInt32 :=
  if x.toUInt32.toUInt64 = x then some x.toUInt32 else none

theorem add?_eq_some_iff : add? x y = some z ↔ x.toNat + y.toNat = z.toNat := by
  have hsum := UInt64.toNat_add x y
  have hx := x.toNat_lt
  have hy := y.toNat_lt
  have hz := z.toNat_lt
  unfold add?
  split
  · next hover =>
    rw [UInt64.lt_iff_toNat_lt] at hover
    simp only [reduceCtorEq, false_iff]
    omega
  · next hkept =>
    rw [UInt64.lt_iff_toNat_lt] at hkept
    rw [Option.some.injEq, ← UInt64.toNat_inj]
    omega

theorem sub?_eq_some_iff : sub? x y = some z ↔ x.toNat = y.toNat + z.toNat := by
  have hz := z.toNat_lt
  unfold sub?
  split
  · next hbelow =>
    rw [UInt64.lt_iff_toNat_lt] at hbelow
    simp only [reduceCtorEq, false_iff]
    omega
  · next hkept =>
    rw [UInt64.not_lt] at hkept
    rw [Option.some.injEq, ← UInt64.toNat_inj, UInt64.toNat_sub_of_le _ _ hkept]
    rw [UInt64.le_iff_toNat_le] at hkept
    omega

theorem toNat_amount_mod (hn : n < 64) : n.toUInt64.toNat % 64 = n := by
  have hword : n.toUInt64.toNat = n := UInt64.toNat_ofNat_of_lt (Nat.lt_trans hn (by decide))
  rw [hword, Nat.mod_eq_of_lt hn]

theorem toNat_shiftRight_amount (hn : n < 64) :
    (x >>> n.toUInt64).toNat = x.toNat / 2 ^ n := by
  rw [UInt64.toNat_shiftRight, toNat_amount_mod hn, Nat.shiftRight_eq_div_pow]

theorem toNat_shiftLeft_amount (hn : n < 64) :
    (x <<< n.toUInt64).toNat = x.toNat * 2 ^ n % 2 ^ 64 := by
  rw [UInt64.toNat_shiftLeft, toNat_amount_mod hn, Nat.shiftLeft_eq]

theorem shiftRight_shiftLeft_eq_self_iff (hn : n < 64) :
    (x <<< n.toUInt64) >>> n.toUInt64 = x ↔ x.toNat * 2 ^ n < 2 ^ 64 := by
  rw [← UInt64.toNat_inj, toNat_shiftRight_amount hn, toNat_shiftLeft_amount hn]
  constructor
  · -- The word that comes back is no greater than what the shift kept.
    intro h
    have hle := Nat.div_mul_le_self (x.toNat * 2 ^ n % 2 ^ 64) (2 ^ n)
    rw [h] at hle
    exact Nat.lt_of_le_of_lt hle (Nat.mod_lt _ (by decide))
  · intro h
    rw [Nat.mod_eq_of_lt h, Nat.mul_div_cancel _ (Nat.two_pow_pos n)]

theorem shiftRight?_eq_some_iff :
    shiftRight? x n = some z ↔ n < 64 ∧ x.toNat / 2 ^ n = z.toNat := by
  unfold shiftRight?
  split
  · next hn => simp [← UInt64.toNat_inj, toNat_shiftRight_amount hn, hn]
  · next hn => simp [hn]

theorem shiftLeft?_eq_some_iff :
    shiftLeft? x n = some z ↔ n < 64 ∧ x.toNat * 2 ^ n = z.toNat := by
  unfold shiftLeft?
  split
  · next hkept =>
    obtain ⟨hn, hback⟩ := hkept
    rw [shiftRight_shiftLeft_eq_self_iff hn] at hback
    rw [Option.some.injEq, ← UInt64.toNat_inj, toNat_shiftLeft_amount hn, Nat.mod_eq_of_lt hback]
    exact (and_iff_right hn).symm
  · next hdropped =>
    simp only [reduceCtorEq, false_iff]
    rintro ⟨hn, hz⟩
    refine hdropped ⟨hn, (shiftRight_shiftLeft_eq_self_iff hn).mpr ?_⟩
    rw [hz]
    exact z.toNat_lt

theorem narrow?_eq_some_iff {narrow : UInt32} :
    narrow? x = some narrow ↔ x.toNat = narrow.toNat := by
  have hlow : x.toUInt32.toNat = x.toNat % 2 ^ 32 := UInt64.toNat_toUInt32 x
  unfold narrow?
  split
  · next hfits =>
    rw [← UInt64.toNat_inj, UInt32.toNat_toUInt64] at hfits
    rw [Option.some.injEq, ← UInt32.toNat_inj, hfits]
  · next hlong =>
    rw [← UInt64.toNat_inj, UInt32.toNat_toUInt64] at hlong
    have hnarrow := narrow.toNat_lt
    simp only [reduceCtorEq, false_iff]
    omega

end GuardedWord

namespace Encoding

open GuardedWord

/-- Packing an aligned address by guarded steps on words. -/
def packWord? (e : Encoding) (address : UInt64) : Option UInt32 :=
  if address = 0 then some 0
  else if e.alignment = 0 ∨ address.toNat % e.alignment ≠ 0 then none
  else do
    let distance ← sub? address e.base
    let granules ← shiftRight? distance e.shift
    narrow? granules

/-- Unpacking by guarded steps on words. -/
def unpackWord? (e : Encoding) (narrow : UInt32) : Option UInt64 :=
  if narrow = 0 then some 0
  else do
    let distance ← shiftLeft? narrow.toUInt64 e.shift
    add? e.base distance

theorem packWord?_eq (e : Encoding) (address : UInt64) :
    e.packWord? address = e.encode? address := by
  by_cases haddress : address = 0
  · simp [packWord?, encode?, haddress]
  ext narrow
  rw [encode?_eq_some_iff haddress, packWord?, if_neg haddress]
  split
  · next hmisaligned =>
    simp only [reduceCtorEq, false_iff]
    rintro ⟨⟨halignment, hdvd⟩, -⟩
    exact hmisaligned.elim halignment fun hmod ↦ hmod (Nat.mod_eq_zero_of_dvd hdvd)
  · next haligned =>
    rw [not_or, not_not, ← Nat.dvd_iff_mod_eq_zero] at haligned
    simp only [Option.bind_eq_bind, Option.bind_eq_some_iff, sub?_eq_some_iff,
      shiftRight?_eq_some_iff, narrow?_eq_some_iff, UInt64.le_iff_toNat_le]
    constructor
    · rintro ⟨distance, hdistance, granules, ⟨hshift, hgranules⟩, hnarrow⟩
      have hsub : address.toNat - e.base.toNat = distance.toNat := by omega
      exact ⟨haligned, ⟨by omega, hshift⟩, by rw [hsub, hgranules, hnarrow]⟩
    · rintro ⟨-, ⟨hbase, hshift⟩, hquotient⟩
      have hsub := UInt64.toNat_sub_of_le address e.base (UInt64.le_iff_toNat_le.mpr hbase)
      refine ⟨address - e.base, by omega, narrow.toUInt64, ⟨hshift, ?_⟩, narrow.toNat_toUInt64⟩
      rw [hsub, hquotient, UInt32.toNat_toUInt64]

theorem unpackWord?_eq (e : Encoding) (narrow : UInt32) :
    e.unpackWord? narrow = e.decode? narrow := by
  by_cases hnarrow : narrow = 0
  · simp [unpackWord?, decode?, hnarrow]
  ext address
  rw [decode?_eq_some_iff hnarrow, unpackWord?, if_neg hnarrow]
  simp only [Option.bind_eq_bind, Option.bind_eq_some_iff, shiftLeft?_eq_some_iff,
    add?_eq_some_iff, UInt32.toNat_toUInt64]
  constructor
  · rintro ⟨distance, ⟨hshift, hdistance⟩, hsum⟩
    exact ⟨hshift, by rw [hdistance, hsum]⟩
  · rintro ⟨hshift, hsum⟩
    have hfits : narrow.toNat * 2 ^ e.shift < UInt64.size :=
      Nat.lt_of_le_of_lt (Nat.le_add_left _ _) (hsum ▸ address.toNat_lt)
    have hdistance := UInt64.toNat_ofNat_of_lt' hfits
    exact ⟨.ofNat (narrow.toNat * 2 ^ e.shift), ⟨hshift, hdistance.symm⟩, by rw [hdistance, hsum]⟩

end Encoding

end DivGuard
