/-!
# Classes

Single inheritance: a class is its name and the class it extends, so a class carries its whole chain
of ancestors and two classes are equal when their chains are.
-/

namespace DivGuard

inductive ClassType where
  | root (name : String)
  | subclass (name : String) (superclass : ClassType)
  deriving DecidableEq, Repr

namespace ClassType

/-- The class with the given name below the given ancestors, nearest first. -/
def ofChain (name : String) : List String → ClassType
  | [] => .root name
  | parent :: ancestors => .subclass name (ofChain parent ancestors)

def name : ClassType → String
  | .root name => name
  | .subclass name _ => name

/-- The names of a class and its ancestors, nearest first. -/
def chain : ClassType → List String
  | .root name => [name]
  | .subclass name superclass => name :: superclass.chain

/-- Whether `b` is `a` or one of the classes that extend it. -/
def includes (a : ClassType) : ClassType → Bool
  | .root name => a == .root name
  | .subclass name superclass => a == .subclass name superclass || a.includes superclass

/-- The first class on the chain of `a` that includes `b`. -/
def commonAncestor? (a b : ClassType) : Option ClassType :=
  if a.includes b then some a
  else match a with
    | .root _ => none
    | .subclass _ superclass => superclass.commonAncestor? b

end ClassType

end DivGuard
