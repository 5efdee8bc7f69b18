/-!
# Tallies

How often each of some names was counted.  Names are kept in the order of their first count; reports
rank them, so they do not show that order.
-/

namespace DivGuard

structure Tally where
  entries : List (String × Nat) := []
  deriving DecidableEq, Repr

namespace Tally

def countIn (name : String) : List (String × Nat) → List (String × Nat)
  | [] => [(name, 1)]
  | (other, n) :: rest =>
    if other = name then (other, n + 1) :: rest else (other, n) :: countIn name rest

def count (t : Tally) (name : String) : Tally := ⟨countIn name t.entries⟩

def get (t : Tally) (name : String) : Nat := (t.entries.lookup name).getD 0

def isEmpty (t : Tally) : Bool := t.entries.isEmpty

/-- Higher counts come first; equal ones go by name. -/
def ranksBefore (a b : String × Nat) : Bool :=
  decide (b.2 < a.2) || (a.2 == b.2 && decide (a.1 ≤ b.1))

def ranked (t : Tally) : List (String × Nat) := t.entries.mergeSort ranksBefore

end Tally

end DivGuard
