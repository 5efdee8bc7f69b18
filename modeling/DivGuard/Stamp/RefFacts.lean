import DivGuard.Reference.ClassType

/-!
# Facts about references

What is known of a reference apart from how it is held: its class, whether the class is exact, and
whether it can or must be null.  Any combination may be written down; facts that call a reference
both never null and always null describe no reference at all.
-/

namespace DivGuard

structure RefFacts where
  /-- The declared class; none means any object. -/
  type? : Option ClassType := none
  /-- The class is `type?` itself and no subclass of it. -/
  exact : Bool := false
  nonNull : Bool := false
  alwaysNull : Bool := false
  deriving DecidableEq, Repr

namespace RefFacts

def anything : RefFacts := {}

def null : RefFacts := { alwaysNull := true }

def object : RefFacts := { nonNull := true }

/-- An object of a class or of one of its subclasses. -/
def instanceOf (type : ClassType) : RefFacts := { type? := some type, nonNull := true }

/-- An object of just this class. -/
def exactly (type : ClassType) : RefFacts := { type? := some type, exact := true, nonNull := true }

/-- No reference satisfies both nullness facts at once. -/
def isEmpty (f : RefFacts) : Bool := f.nonNull && f.alwaysNull

/-- What holds of a reference that comes from either of two places.  Null carries no class, so
beside null the other side decides it. -/
def merge (f g : RefFacts) : RefFacts :=
  if f.isEmpty then g
  else if g.isEmpty then f
  else if f = g then f
  else if f.alwaysNull then { g with nonNull := false }
  else if g.alwaysNull then { f with nonNull := false }
  else
    let type? := commonType? f.type? g.type?
    { type? := type?
      exact := f.exact && g.exact && type?.isSome && f.type? == g.type?
      nonNull := f.nonNull && g.nonNull }
where
  commonType? : Option ClassType → Option ClassType → Option ClassType
    | some a, some b => if a = b then some a else a.commonAncestor? b
    | _, _ => none

def text (f : RefFacts) : String :=
  "a" ++ (if f.nonNull then "!" else "") ++ (if f.exact then "#" else "") ++ " "
    ++ (f.type?.elim "-" ClassType.name) ++ (if f.alwaysNull then " NULL" else "")

end RefFacts

end DivGuard
