/-!
# Placement of array elements

An array holds its elements at equal distances behind a header.
-/

namespace DivGuard.Heap

structure ArrayLayout where
  /-- Offset of element 0 from the start of the array, in bytes. -/
  baseOffset : Int64
  /-- Distance between elements in bytes. -/
  indexScale : Int64
  deriving DecidableEq, Repr

namespace ArrayLayout

/-- The distance of a displacement from element 0, if it fits a word. -/
def distance? (layout : ArrayLayout) (displacement : Int64) : Option Int64 :=
  if displacement.toBitVec.ssubOverflow layout.baseOffset.toBitVec then none
  else some (displacement - layout.baseOffset)

def indexAt? (layout : ArrayLayout) (displacement : Int64) : Option Nat :=
  match layout.distance? displacement with
  | none => none
  | some distance =>
    if distance < 0 ∨ layout.indexScale ≤ 0 ∨ distance % layout.indexScale ≠ 0 then none
    else some (distance / layout.indexScale).toInt.toNat

end ArrayLayout

end DivGuard.Heap
