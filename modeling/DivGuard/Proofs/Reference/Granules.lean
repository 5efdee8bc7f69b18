import DivGuard.Proofs.Reference.GuardedWords

/-!
# Packing forgets the place in a granule

From the base upwards addresses lie in granules of `2 ^ shift` bytes.  Packing numbers the granules
and unpacking gives the first address of one, so an unpacked number can be packed again just if its
address is aligned, and a packed address comes back rounded down.  Under a valid encoding no granule
holds two aligned addresses, so packing keeps them apart and in order.
-/

namespace DivGuard.Encoding

variable {e : Encoding} {a b address : UInt64} {m n narrow : UInt32}

/-! ## Rounding -/

theorem ne_zero_of_decode? (hnarrow : narrow ≠ 0) (hunpack : e.decode? narrow = some address) :
    address ≠ 0 := by
  obtain ⟨-, hsum⟩ := (decode?_eq_some_iff hnarrow).mp hunpack
  have hgranules : 0 < narrow.toNat * 2 ^ e.shift :=
    Nat.mul_pos (Nat.pos_of_ne_zero fun hzero ↦ hnarrow (UInt32.toNat_inj.mp hzero))
      (Nat.two_pow_pos e.shift)
  rintro rfl
  rw [UInt64.toNat_zero] at hsum
  omega

theorem encode?_of_misaligned (haddress : address ≠ 0)
    (hmisaligned : ¬(e.alignment ≠ 0 ∧ e.alignment ∣ address.toNat)) :
    e.encode? address = none := by
  rw [Option.eq_none_iff_forall_ne_some]
  intro narrow hpack
  exact hmisaligned ((encode?_eq_some_iff haddress).mp hpack).1

/-- An unpacked number is refused for its alignment alone. -/
theorem encode?_of_decode? (hnarrow : narrow ≠ 0) (hunpack : e.decode? narrow = some address)
    (haligned : e.alignment ≠ 0 ∧ e.alignment ∣ address.toNat) :
    e.encode? address = some narrow := by
  obtain ⟨hshift, hsum⟩ := (decode?_eq_some_iff hnarrow).mp hunpack
  rw [encode?_eq_some_iff (ne_zero_of_decode? hnarrow hunpack), UInt64.le_iff_toNat_le, ← hsum]
  refine ⟨hsum ▸ haligned, ⟨Nat.le_add_right _ _, hshift⟩, ?_⟩
  rw [Nat.add_sub_cancel_left, Nat.mul_div_cancel _ (Nat.two_pow_pos e.shift)]

theorem encode?_decode? (hunpack : e.decode? narrow = some address) :
    e.encode? address =
      if address = 0 ∨ (e.alignment ≠ 0 ∧ e.alignment ∣ address.toNat) then some narrow
      else none := by
  by_cases hnarrow : narrow = 0
  · obtain rfl : address = 0 := by simpa [decode?, hnarrow] using hunpack.symm
    simp [encode?, hnarrow]
  · have haddress := ne_zero_of_decode? hnarrow hunpack
    simp only [haddress, false_or]
    split
    · next haligned => exact encode?_of_decode? hnarrow hunpack haligned
    · next hmisaligned => exact encode?_of_misaligned haddress hmisaligned

/-- Whatever the encoding: an unpacked number is packed again just if its address is aligned.  A
packed address comes back as the first one of its granule, but zero stands for null and for the
whole first granule.  The same holds of packing and unpacking with words alone. -/
theorem pack_unpack_rounding (e : Encoding) :
    (∀ narrow address, e.decode? narrow = some address →
      e.encode? address =
        if address = 0 ∨ (e.alignment ≠ 0 ∧ e.alignment ∣ address.toNat) then some narrow
        else none) ∧
    (∀ address narrow, e.encode? address = some narrow →
      (narrow = 0 ↔ address = 0 ∨
        (e.base ≤ address ∧ address.toNat < e.base.toNat + 2 ^ e.shift)) ∧
      (narrow ≠ 0 → e.base ≤ address ∧ ∃ start ≤ address, e.decode? narrow = some start ∧
        start.toNat = address.toNat - (address.toNat - e.base.toNat) % 2 ^ e.shift)) ∧
    (∀ address, e.packWord? address = e.encode? address) ∧
    ∀ narrow, e.unpackWord? narrow = e.decode? narrow := by
  refine ⟨fun _ _ ↦ encode?_decode?, fun address narrow hpack ↦ ⟨?_, fun hnarrow ↦ ?_⟩,
    packWord?_eq e, unpackWord?_eq e⟩
  · rw [encode?_eq_zero_iff hpack]
    refine or_congr_right' fun haddress ↦ ?_
    obtain ⟨-, ⟨hbase, -⟩, -⟩ := (encode?_eq_some_iff haddress).mp hpack
    exact (and_iff_right hbase).symm
  · have haddress : address ≠ 0 := by
      rintro rfl
      exact hnarrow (by simpa [encode?] using hpack.symm)
    obtain ⟨hbase, start, hunpack, hstart⟩ := exists_decode?_of_encode? haddress hpack hnarrow
    refine ⟨hbase, start, ?_, hunpack, hstart⟩
    rw [UInt64.le_iff_toNat_le, hstart]
    exact Nat.sub_le _ _

/-- An alignment that is no power of two, above a base that is no multiple of the granule. -/
theorem pack_unpack_rounding_sixes :
    let e : Encoding := ⟨4, 3, 6⟩
    (e.decode? 1 = some 12 ∧ e.encode? 12 = some 1) ∧
      (e.decode? 2 = some 20 ∧ e.encode? 20 = none) ∧
      e.encode? 18 = some 1 ∧ ∃ start ≤ 18, e.decode? 1 = some start ∧ start.toNat = 12 := by
  intro e
  obtain ⟨hunpacked, hpacked, -⟩ := pack_unpack_rounding e
  have hfirst : e.decode? 1 = some 12 := by decide +kernel
  have hsecond : e.decode? 2 = some 20 := by decide +kernel
  have hlast : e.encode? 18 = some 1 := by decide +kernel
  refine ⟨⟨hfirst, ?_⟩, ⟨hsecond, ?_⟩, hlast, ?_⟩
  · rw [hunpacked 1 12 hfirst, if_pos (by decide)]
  · rw [hunpacked 2 20 hsecond, if_neg (by decide)]
  · obtain ⟨-, start, hle, hstart, htoNat⟩ := (hpacked 18 1 hlast).2 (by decide)
    exact ⟨start, hle, hstart, htoNat.trans (by decide)⟩

/-! ## Order -/

/-- Aligned addresses that differ lie in different granules. -/
theorem encode?_lt_encode? (hvalid : e.Valid) (ha : a ≠ 0) (hlt : a < b)
    (hpacka : e.encode? a = some m) (hpackb : e.encode? b = some n) : m < n := by
  have hb : b ≠ 0 := by
    rintro rfl
    exact UInt64.not_lt_zero hlt
  obtain ⟨⟨-, haligned⟩, ⟨hbase, -⟩, hm⟩ := (encode?_eq_some_iff ha).mp hpacka
  obtain ⟨⟨-, haligned'⟩, -, hn⟩ := (encode?_eq_some_iff hb).mp hpackb
  rw [UInt64.le_iff_toNat_le] at hbase
  rw [UInt64.lt_iff_toNat_lt] at hlt
  -- Both are multiples of the granule, so they lie at least one granule apart.
  have hgranule : 2 ^ e.shift ∣ b.toNat - a.toNat :=
    Nat.dvd_trans hvalid.granule_dvd (Nat.dvd_sub haligned' haligned)
  have hstep : 2 ^ e.shift ≤ b.toNat - a.toNat :=
    Nat.le_of_dvd (Nat.sub_pos_of_lt hlt) hgranule
  have hdistance : a.toNat - e.base.toNat + 2 ^ e.shift ≤ b.toNat - e.base.toNat := by omega
  have hquotient := Nat.div_le_div_right (c := 2 ^ e.shift) hdistance
  rw [Nat.add_div_right _ (Nat.two_pow_pos e.shift), hm, hn] at hquotient
  exact UInt32.lt_iff_toNat_lt.mpr hquotient

theorem decode?_lt_decode? (hm : m ≠ 0) (hlt : m < n) (hunpackm : e.decode? m = some a)
    (hunpackn : e.decode? n = some b) : a < b := by
  have hn : n ≠ 0 := by
    rintro rfl
    exact UInt32.not_lt_zero hlt
  obtain ⟨-, hsum⟩ := (decode?_eq_some_iff hm).mp hunpackm
  obtain ⟨-, hsum'⟩ := (decode?_eq_some_iff hn).mp hunpackn
  rw [UInt64.lt_iff_toNat_lt, ← hsum, ← hsum']
  rw [UInt32.lt_iff_toNat_lt] at hlt
  exact Nat.add_lt_add_left (Nat.mul_lt_mul_of_pos_right hlt (Nat.two_pow_pos e.shift)) _

/-- Under a valid encoding addresses other than null pack in their order, so no two of them to one
number, and numbers other than zero unpack in theirs. -/
theorem pack_unpack_order (hvalid : e.isValid = true) :
    (∀ a b m n, a ≠ 0 → b ≠ 0 → e.encode? a = some m → e.encode? b = some n →
      (m < n ↔ a < b) ∧ (m = n ↔ a = b)) ∧
    ∀ m n a b, m ≠ 0 → n ≠ 0 → e.decode? m = some a → e.decode? n = some b →
      (a < b ↔ m < n) ∧ (a = b ↔ m = n) := by
  have hvalid' := (isValid_iff e).mp hvalid
  constructor
  · intro a b m n ha hb hpacka hpackb
    have hlt : a < b → m < n := fun h ↦ encode?_lt_encode? hvalid' ha h hpacka hpackb
    have hgt : b < a → n < m := fun h ↦ encode?_lt_encode? hvalid' hb h hpackb hpacka
    have heq : a = b → m = n := by
      rintro rfl
      exact Option.some.inj (hpacka.symm.trans hpackb)
    simp only [UInt64.lt_iff_toNat_lt, UInt32.lt_iff_toNat_lt, ← UInt64.toNat_inj,
      ← UInt32.toNat_inj] at hlt hgt heq ⊢
    omega
  · intro m n a b hm hn hunpackm hunpackn
    have hlt : m < n → a < b := fun h ↦ decode?_lt_decode? hm h hunpackm hunpackn
    have hgt : n < m → b < a := fun h ↦ decode?_lt_decode? hn h hunpackn hunpackm
    have heq : m = n → a = b := by
      rintro rfl
      exact Option.some.inj (hunpackm.symm.trans hunpackn)
    simp only [UInt64.lt_iff_toNat_lt, UInt32.lt_iff_toNat_lt, ← UInt64.toNat_inj,
      ← UInt32.toNat_inj] at hlt hgt heq ⊢
    omega

/-- Neighbours above a base that is no multiple of the granule. -/
theorem pack_unpack_order_unaligned :
    let e : Encoding := ⟨4, 3, 8⟩
    e.isValid = true ∧ (e.encode? 16 = some 1 ∧ e.encode? 24 = some 2 ∧ (1 : UInt32) < 2) ∧
      e.decode? 1 = some 12 ∧ e.decode? 2 = some 20 ∧ (12 : UInt64) < 20 := by
  intro e
  have hvalid : e.isValid = true := by decide +kernel
  have hpacka : e.encode? 16 = some 1 := by decide +kernel
  have hpackb : e.encode? 24 = some 2 := by decide +kernel
  have hunpacka : e.decode? 1 = some 12 := by decide +kernel
  have hunpackb : e.decode? 2 = some 20 := by decide +kernel
  obtain ⟨hpack, hunpack⟩ := pack_unpack_order hvalid
  refine ⟨hvalid, ⟨hpacka, hpackb, ?_⟩, hunpacka, hunpackb, ?_⟩
  · exact (hpack 16 24 1 2 (by decide) (by decide) hpacka hpackb).1.mpr (by decide)
  · exact (hunpack 1 2 12 20 (by decide) (by decide) hunpacka hunpackb).1.mpr (by decide)

end DivGuard.Encoding
