import DivGuard.Session.Tally

/-!
# Compilation sessions

A session keeps the books of the units compiled in it: which one is being compiled, and what the
lowering did so far.
-/

namespace DivGuard

structure Statistics where
  /-- Nodes replaced by a lowered fragment. -/
  lowered : Nat := 0
  /-- Nodes visited and left as they were. -/
  skipped : Nat := 0
  instantiated : Nat := 0
  /-- Nodes that instantiations added. -/
  created : Nat := 0
  operations : Tally := {}
  deriving DecidableEq, Repr

namespace Statistics

def recordLowered (s : Statistics) (operation : String) : Statistics :=
  { s with lowered := s.lowered + 1, operations := s.operations.count operation }

def recordSkipped (s : Statistics) : Statistics := { s with skipped := s.skipped + 1 }

def recordInstantiated (s : Statistics) (nodes : Nat) : Statistics :=
  { s with instantiated := s.instantiated + 1, created := s.created + nodes }

def report (s : Statistics) : List String :=
  ["Lowering Session Statistics:",
    s!"  Nodes lowered: {s.lowered}",
    s!"  Nodes skipped: {s.skipped}",
    s!"  Templates instantiated: {s.instantiated}",
    s!"  Nodes created: {s.created}"] ++ breakdown s.operations
where
  breakdown (operations : Tally) : List String :=
    if operations.isEmpty then []
    else "  Operation breakdown:" :: operations.ranked.map fun (name, n) ↦ s!"    {name}: {n}"

def text (s : Statistics) : String := String.join (s.report.map fun line ↦ line ++ "\n")

end Statistics

structure Session where
  unit? : Option String := none
  statistics : Statistics := {}
  deriving DecidableEq, Repr

namespace Session

def enter (s : Session) (unit : String) : Session := { s with unit? := some unit }

def recordLowered (s : Session) (operation : String) : Session :=
  { s with statistics := s.statistics.recordLowered operation }

def recordSkipped (s : Session) : Session := { s with statistics := s.statistics.recordSkipped }

def recordInstantiated (s : Session) (nodes : Nat) : Session :=
  { s with statistics := s.statistics.recordInstantiated nodes }

end Session

end DivGuard
