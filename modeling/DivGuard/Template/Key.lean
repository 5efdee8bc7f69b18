import DivGuard.Integer.Division

/-!
# Template keys

There is one division template for each operation and width.
-/

namespace DivGuard.Template

structure Key where
  op : DivOp
  width : Nat
  deriving DecidableEq, Repr

def Key.text (key : Key) : String := s!"{key.op.name}_i{key.width}"

end DivGuard.Template
