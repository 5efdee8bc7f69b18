import DivGuard.UnitError

/-!
# Merging stamps

Where two paths of control join, an edge carries what either path brings.  Only stamps of one
representation can be merged; the result has that representation too.
-/

namespace DivGuard.Stamp

def merge : Stamp → Stamp → Except UnitError Stamp
  | .void, .void => .ok .void
  | .int r, .int s =>
    if r.bits = s.bits then .ok (.int (r.hull s))
    else .error (.incompatibleStamps (.int r) (.int s))
  | .ref k f, .ref l g =>
    if k = l then .ok (.ref k (f.merge g))
    else .error (.incompatibleStamps (.ref k f) (.ref l g))
  | a, b => .error (.incompatibleStamps a b)

/-- The layout of a reference held in some form.  A narrow one needs an encoding. -/
def layoutOf? : RefForm → Option Encoding → Option RefLayout
  | .full, _ => some .full
  | .narrow, encoding? => encoding?.map .narrow

/-- The stamp of a constant.  A narrow reference without an encoding has none, since a full stamp
would not accept it. -/
def ofConstant (c : Constant) (encoding? : Option Encoding) : Except UnitError Stamp :=
  match c with
  | .int bits value => .ok (.oneInt bits value)
  | .null form => ofReference .null form
  | .object _ form => ofReference .object form
where
  ofReference (facts : RefFacts) (form : RefForm) : Except UnitError Stamp :=
    match layoutOf? form encoding? with
    | none => .error (.missingEncoding c)
    | some layout => .ok (.ref layout facts)

end DivGuard.Stamp
