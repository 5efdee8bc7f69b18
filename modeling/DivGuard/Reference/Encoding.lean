import DivGuard.Text.Numeral

/-!
# Encodings of narrow references

A narrow reference is a 32-bit number `n` that stands for the address `base + n * 2 ^ shift`.  Zero
is null on both sides, whatever the base.

Any base, shift and alignment make an encoding, also ones that lose addresses; `Valid` singles out
those that do not.  No power of two is computed before its exponent is known to be small.
-/

namespace DivGuard

/-- How references are packed into 32 bits. -/
structure Encoding where
  /-- Heap base, taken off before the shift. -/
  base : UInt64
  /-- Number of low bits that packing drops. -/
  shift : Nat
  /-- Alignment of objects in bytes. -/
  alignment : Nat
  deriving DecidableEq, Repr

namespace Encoding

/-- The encoding from base zero with the alignment that the shift calls for.  A shift of 32 or more
has no 32-bit alignment; it gets alignment 0, which packs nothing but null. -/
def ofShift (shift : Nat) : Encoding :=
  ⟨0, shift, if shift < 32 then 1 <<< shift else 0⟩

def hasBase (e : Encoding) : Bool := e.base != 0

def hasShift (e : Encoding) : Bool := e.shift != 0

/-- The shift drops no bit that an aligned address can have set. -/
def Valid (e : Encoding) : Prop :=
  e.alignment.isPowerOfTwo ∧ e.shift < 32 ∧ 1 <<< e.shift ≤ e.alignment

/-- The check of `Valid`. -/
def isValid (e : Encoding) : Bool :=
  e.alignment == 1 <<< e.alignment.log2 &&
    (decide (e.shift < 32) && decide (1 <<< e.shift ≤ e.alignment))

theorem isValid_iff (e : Encoding) : e.isValid = true ↔ e.Valid := by
  simp only [isValid, Valid, Bool.and_eq_true, beq_iff_eq, decide_eq_true_eq, Nat.one_shiftLeft]
  refine and_congr ⟨fun h ↦ ⟨_, h⟩, ?_⟩ Iff.rfl
  rintro ⟨k, hk⟩
  rw [hk, Nat.log2_two_pow]

/-- Packs an address.  None if it is misaligned, below the base, or too far above it.  Alignment is
that of the address itself, not of its distance from the base. -/
def encode? (e : Encoding) (address : UInt64) : Option UInt32 :=
  if address = 0 then some 0
  else if e.alignment = 0 ∨ address.toNat % e.alignment ≠ 0 then none
  else if address < e.base ∨ 64 ≤ e.shift then none
  else
    let n := (address.toNat - e.base.toNat) >>> e.shift
    if n < UInt32.size then some (.ofNat n) else none

/-- Unpacks a narrow reference.  None if the address does not fit 64 bits. -/
def decode? (e : Encoding) (narrow : UInt32) : Option UInt64 :=
  if narrow = 0 then some 0
  else if 64 ≤ e.shift then none
  else
    let address := e.base.toNat + narrow.toNat <<< e.shift
    if address < UInt64.size then some (.ofNat address) else none

def text (e : Encoding) : String :=
  s!"base={Text.hexadecimal e.base} shift={e.shift} align={e.alignment}"

end Encoding

end DivGuard
