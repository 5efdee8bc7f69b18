import DivGuard.Heap.ArrayLayout
import DivGuard.UnitError

/-!
# Reading objects at compile time

What the surrounding runtime offers for folding loads from objects that are known at compile time.
A stamp chooses the read that fits how its values are held.
-/

namespace DivGuard

namespace Heap

/-- Reads references out of objects.  The answer is none where a load cannot be folded. -/
structure FieldReader where
  /-- The full reference at a displacement from an object. -/
  read : Constant → Int64 → Except UnitError (Option Constant)
  /-- The narrow reference at a displacement from an object.  A runtime that knows no narrow
  references reports that. -/
  readNarrow : Constant → Int64 → Encoding → Except UnitError (Option Constant) :=
    fun _ _ _ ↦ .error (.unsupportedMemoryRead "compressed reference")

/-- Reads elements out of arrays of references, always in full form. -/
structure ArrayReader where
  layout : ArrayLayout
  element? : Constant → Nat → Option Constant

/-- The element that starts at a displacement into an array. -/
def ArrayReader.elementAt? (reader : ArrayReader) (array : Constant) (displacement : Int64) :
    Option Constant :=
  (reader.layout.indexAt? displacement).bind (reader.element? array)

end Heap

namespace Stamp

/-- Folds the load of a field with this stamp. -/
def readField (stamp : Stamp) (reader : Heap.FieldReader) (base : Constant) (displacement : Int64) :
    Except UnitError (Option Constant) :=
  match stamp with
  | .void => .error (.unsupportedMemoryRead "void")
  | .int _ => .error (.unsupportedMemoryRead "primitive")
  | .ref .full _ => reader.read base displacement
  | .ref (.narrow encoding) _ => reader.readNarrow base displacement encoding

/-- Folds the load of an array element with this stamp.  Narrow elements are read in full and put
into narrow form, as they are held at run time. -/
def readElement? (stamp : Stamp) (reader : Heap.ArrayReader) (array : Constant)
    (displacement : Int64) : Option Constant :=
  match stamp with
  | .void | .int _ => none
  | .ref .full _ => reader.elementAt? array displacement
  | .ref (.narrow _) _ => (reader.elementAt? array displacement).map (.inForm .narrow)

end Stamp

end DivGuard
