/-!
# Cutting words to a width

Integers of every width travel as 64-bit words.  A width keeps the low bits of a word and extends
them again, by the sign or by zeros.  Widths above 64 keep the whole word and width 0 keeps nothing,
so only `min bits 64` ever counts: huge widths cost no more than small ones.
-/

namespace DivGuard

/-- The low `bits` of `v`, extended by their top bit. -/
def signExtend (bits : Nat) (v : Int64) : Int64 :=
  .ofBitVec ((v.toBitVec.setWidth (min bits 64)).signExtend 64)

/-- The low `bits` of `v`, extended by zeros. -/
def zeroExtend (bits : Nat) (v : Int64) : UInt64 :=
  .ofBitVec ((v.toBitVec.setWidth (min bits 64)).setWidth 64)

/-- The least signed integer of a width. -/
def leastInt : Nat → Int64
  | 0 => 0
  | n + 1 => .ofInt (-(1 <<< min n 63 : Nat))

/-- The greatest signed integer of a width. -/
def greatestInt : Nat → Int64
  | 0 => 0
  | n + 1 => .ofInt ((1 <<< min n 63 : Nat) - 1)

end DivGuard
