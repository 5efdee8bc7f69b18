import DivGuard.Reference.Encoding
import Mathlib.Algebra.Ring.Nat

/-!
# Packing an address and unpacking it again

Packing divides the distance from the base by the granule `2 ^ shift`, unpacking multiplies again,
so an address comes back just if its distance is a multiple of the granule.  Under a valid encoding
that is a condition on the base alone.  One address is lost whatever the base: the base itself packs
to zero, and zero unpacks to null.
-/

namespace DivGuard.Encoding

variable {e : Encoding} {address : UInt64} {narrow : UInt32}

theorem encode?_eq_some_iff (haddress : address ≠ 0) :
    e.encode? address = some narrow ↔
      (e.alignment ≠ 0 ∧ e.alignment ∣ address.toNat) ∧ (e.base ≤ address ∧ e.shift < 64) ∧
        (address.toNat - e.base.toNat) / 2 ^ e.shift = narrow.toNat := by
  unfold encode?
  rw [if_neg haddress]
  split
  · next hmisaligned =>
    simp only [reduceCtorEq, false_iff]
    rintro ⟨⟨halignment, hdvd⟩, -⟩
    rcases hmisaligned with hzero | hmod
    · exact halignment hzero
    · exact hmod (Nat.mod_eq_zero_of_dvd hdvd)
  · next haligned =>
    have hleft : e.alignment ≠ 0 ∧ e.alignment ∣ address.toNat := by
      simpa [not_or, Nat.dvd_iff_mod_eq_zero] using haligned
    split
    · next hout =>
      simp only [reduceCtorEq, false_iff]
      rintro ⟨-, ⟨hbase, hshift⟩, -⟩
      rcases hout with hbelow | hwide
      · exact absurd hbase (UInt64.not_le.mpr hbelow)
      · omega
    · next hin =>
      have hmiddle : e.base ≤ address ∧ e.shift < 64 := by
        simpa [not_or, UInt64.not_lt] using hin
      dsimp only
      rw [Nat.shiftRight_eq_div_pow]
      simp only [hleft, hmiddle, true_and, and_self, ne_eq, not_false_eq_true]
      constructor
      · intro h
        split at h
        · next hsmall =>
          obtain rfl := Option.some.inj h
          exact (UInt32.toNat_ofNat_of_lt hsmall).symm
        · cases h
      · intro h
        rw [h, if_pos narrow.toNat_lt, UInt32.ofNat_toNat]

theorem decode?_eq_some_iff (hnarrow : narrow ≠ 0) :
    e.decode? narrow = some address ↔
      e.shift < 64 ∧ e.base.toNat + narrow.toNat * 2 ^ e.shift = address.toNat := by
  unfold decode?
  rw [if_neg hnarrow]
  split
  · next hwide =>
    simp only [reduceCtorEq, false_iff]
    omega
  · next hshift =>
    dsimp only
    rw [Nat.shiftLeft_eq]
    simp only [Nat.lt_of_not_le hshift, true_and]
    constructor
    · intro h
      split at h
      · next hsmall =>
        obtain rfl := Option.some.inj h
        exact (UInt64.toNat_ofNat_of_lt hsmall).symm
      · cases h
    · intro h
      rw [h, if_pos address.toNat_lt, UInt64.ofNat_toNat]

/-- A packed address that is not taken for null comes back rounded down to its granule. -/
theorem exists_decode?_of_encode? (haddress : address ≠ 0)
    (hpack : e.encode? address = some narrow) (hnarrow : narrow ≠ 0) :
    e.base ≤ address ∧ ∃ start, e.decode? narrow = some start ∧
      start.toNat = address.toNat - (address.toNat - e.base.toNat) % 2 ^ e.shift := by
  obtain ⟨-, ⟨hbase, hshift⟩, hquotient⟩ := (encode?_eq_some_iff haddress).mp hpack
  have hfits : address.toNat - (address.toNat - e.base.toNat) % 2 ^ e.shift < UInt64.size :=
    Nat.lt_of_le_of_lt (Nat.sub_le _ _) address.toNat_lt
  have hstart := UInt64.toNat_ofNat_of_lt' hfits
  refine ⟨hbase, .ofNat _, ?_, hstart⟩
  rw [UInt64.le_iff_toNat_le] at hbase
  have hdivision := Nat.div_add_mod' (address.toNat - e.base.toNat) (2 ^ e.shift)
  rw [decode?_eq_some_iff hnarrow, hstart, ← hquotient]
  exact ⟨hshift, by omega⟩

/-- What packing keeps of an address that it does not take for null. -/
theorem decode?_of_encode? (haddress : address ≠ 0) (hpack : e.encode? address = some narrow)
    (hnarrow : narrow ≠ 0) :
    e.decode? narrow = some address ↔ 2 ^ e.shift ∣ address.toNat - e.base.toNat := by
  obtain ⟨hbase, start, hunpack, hstart⟩ := exists_decode?_of_encode? haddress hpack hnarrow
  have hrest := Nat.mod_le (address.toNat - e.base.toNat) (2 ^ e.shift)
  rw [UInt64.le_iff_toNat_le] at hbase
  rw [hunpack, Option.some.injEq, ← UInt64.toNat_inj, hstart, Nat.dvd_iff_mod_eq_zero]
  omega

theorem encode?_eq_zero_iff (hpack : e.encode? address = some narrow) :
    narrow = 0 ↔ address = 0 ∨ address.toNat < e.base.toNat + 2 ^ e.shift := by
  by_cases haddress : address = 0
  · subst haddress
    obtain rfl : narrow = 0 := by simpa [encode?] using hpack.symm
    simp
  · obtain ⟨-, ⟨hbase, -⟩, hquotient⟩ := (encode?_eq_some_iff haddress).mp hpack
    rw [UInt64.le_iff_toNat_le] at hbase
    rw [← UInt32.toNat_inj, ← hquotient, UInt32.toNat_zero,
      Nat.div_eq_zero_iff_lt (Nat.two_pow_pos _)]
    simp only [haddress, false_or]
    lia

/-- Aligned addresses are multiples of the granule, since both sizes are powers of two. -/
theorem Valid.granule_dvd (hvalid : e.Valid) : 2 ^ e.shift ∣ e.alignment := by
  obtain ⟨⟨k, hk⟩, -, hle⟩ := hvalid
  rw [Nat.one_shiftLeft, hk] at hle
  rw [hk]
  exact Nat.pow_dvd_pow 2 ((Nat.pow_le_pow_iff_right (by decide)).mp hle)

/-- Under a valid encoding an address other than null comes back just if it is not the base and the
base is a multiple of the granule.  Zero stands for null and for the addresses of the first
granule. -/
theorem unpack_pack_iff (hvalid : e.isValid = true) (hpack : e.encode? address = some narrow) :
    (e.decode? narrow = some address ↔
      address = 0 ∨ (address ≠ e.base ∧ 2 ^ e.shift ∣ e.base.toNat)) ∧
    (narrow = 0 ↔ address = 0 ∨ address.toNat < e.base.toNat + 2 ^ e.shift) := by
  refine ⟨?_, encode?_eq_zero_iff hpack⟩
  by_cases haddress : address = 0
  · subst haddress
    obtain rfl : narrow = 0 := by simpa [encode?] using hpack.symm
    simp [decode?]
  obtain ⟨⟨-, halignment⟩, ⟨hbase, -⟩, -⟩ := (encode?_eq_some_iff haddress).mp hpack
  rw [UInt64.le_iff_toNat_le] at hbase
  have hgranule : 2 ^ e.shift ∣ address.toNat :=
    Nat.dvd_trans ((isValid_iff e).mp hvalid).granule_dvd halignment
  have hdistance : 2 ^ e.shift ∣ address.toNat - e.base.toNat ↔ 2 ^ e.shift ∣ e.base.toNat :=
    Nat.dvd_sub_iff_right hbase hgranule
  simp only [haddress, false_or]
  by_cases hnarrow : narrow = 0
  · -- The distance is below the granule, so it is a multiple only if it is zero.
    have hfirst : address.toNat < e.base.toNat + 2 ^ e.shift := by
      simpa [haddress] using (encode?_eq_zero_iff hpack).mp hnarrow
    have hnull : e.decode? narrow = some 0 := by simp [decode?, hnarrow]
    rw [hnull]
    constructor
    · intro h
      exact absurd (Option.some.inj h).symm haddress
    · rintro ⟨hne, hdvd⟩
      have hsame : address.toNat - e.base.toNat = 0 :=
        Nat.eq_zero_of_dvd_of_lt (hdistance.mpr hdvd) (by lia)
      exact absurd (UInt64.toNat_inj.mp (by lia)) hne
  · have hne : address ≠ e.base := by
      rintro rfl
      have hfirst := Nat.lt_add_of_pos_right (n := e.base.toNat) (Nat.two_pow_pos e.shift)
      exact hnarrow ((encode?_eq_zero_iff hpack).mpr (.inr hfirst))
    rw [decode?_of_encode? haddress hpack hnarrow, hdistance]
    simp [hne]

theorem unpack_pack_inside_heap :
    let e : Encoding := ⟨0x800000000, 3, 8⟩
    e.isValid = true ∧ e.encode? 0x800001238 = some 0x247 ∧
      e.decode? 0x247 = some 0x800001238 := by
  intro e
  have hvalid : e.isValid = true := by decide +kernel
  have hpack : e.encode? 0x800001238 = some 0x247 := by decide +kernel
  refine ⟨hvalid, hpack, (unpack_pack_iff hvalid hpack).1.mpr (.inr ?_)⟩
  decide +kernel

/-- The base packs to the number of null, and above a base that is no multiple of the granule an
address comes back as another one. -/
theorem valid_encoding_loses_addresses :
    let paged : Encoding := ⟨4096, 3, 8⟩
    let unaligned : Encoding := ⟨4, 3, 8⟩
    (paged.isValid = true ∧ paged.encode? 4096 = some 0 ∧ paged.decode? 0 = some 0) ∧
      unaligned.isValid = true ∧ unaligned.encode? 16 = some 1 ∧
        unaligned.decode? 1 = some 12 := by
  decide +kernel

end DivGuard.Encoding
