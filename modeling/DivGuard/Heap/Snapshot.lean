import DivGuard.Heap.Reader

/-!
# Heap snapshots

A heap written down in full: objects by address, each a row of 64-bit slots that hold addresses.
Loads from it can be folded, in narrow form too if the heap knows narrow references.
-/

namespace DivGuard.Heap

structure Snapshot where
  hasNarrow : Bool
  layout : ArrayLayout
  objects : List (UInt64 × List UInt64)
  deriving Repr

namespace Snapshot

/-- One slot of the object that a constant names, whatever its form. -/
def slot? (heap : Snapshot) (base : Constant) (index : Nat) : Option UInt64 :=
  match base with
  | .int _ _ | .null _ => none
  | .object address _ => (heap.objects.lookup address).bind fun slots ↦ slots[index]?

/-- The slot that starts at a displacement.  Slots are eight bytes wide. -/
def slotAt? (heap : Snapshot) (base : Constant) (displacement : Int64) : Option UInt64 :=
  if displacement < 0 ∨ displacement % 8 ≠ 0 then none
  else heap.slot? base (displacement / 8).toInt.toNat

/-- A slot as its packed form names it.  None if the address cannot be packed. -/
def narrowSlotAt? (heap : Snapshot) (base : Constant) (displacement : Int64)
    (encoding : Encoding) : Option UInt64 :=
  ((heap.slotAt? base displacement).bind encoding.encode?).bind encoding.decode?

def fieldReader (heap : Snapshot) : FieldReader :=
  let read := fun base displacement ↦ .ok ((heap.slotAt? base displacement).map .ofAddress)
  if heap.hasNarrow then
    { read
      readNarrow := fun base displacement encoding ↦
        .ok ((heap.narrowSlotAt? base displacement encoding).map fun address ↦
          (Constant.ofAddress address).inForm .narrow) }
  else { read }

def arrayReader (heap : Snapshot) : ArrayReader where
  layout := heap.layout
  element? array index := (heap.slot? array index).map .ofAddress

end Snapshot

end DivGuard.Heap
