import DivGuard.Fallback
import DivGuard.Integer.Division
import DivGuard.Stamp.Basic

/-!
# Graph nodes

A node computes one value from its inputs, which it names by number.  Division comes in two kinds:
`divRem` is the bare operation, `safeDivRem` the one whose third input is a guard against a zero
divisor.  The kind is part of the node, so the one is never taken for the other.
-/

namespace DivGuard

abbrev NodeId := Nat

def NodeId.text (id : NodeId) : String := s!"n{id}"

inductive Node.Kind where
  /-- Argument of the unit, counted from zero. -/
  | parameter (index : Nat)
  | constant (value : Constant)
  /-- One if the two inputs are equal, zero if not. -/
  | equals
  /-- Falls back if the input is not zero. -/
  | guard (request : Fallback)
  | divRem (op : DivOp)
  /-- Division of the first input by the second, behind the guard that is the third. -/
  | safeDivRem (op : DivOp)
  | result
  deriving DecidableEq, Repr

namespace Node.Kind

def text : Node.Kind → String
  | .parameter index => s!"param({index})"
  | .constant value => s!"const {value.text}"
  | .equals => "eq"
  | .guard request => s!"guard({request.text})"
  | .divRem op => op.name
  | .safeDivRem op => s!"safe {op.name}"
  | .result => "return"

def arity : Node.Kind → Nat
  | .parameter _ | .constant _ => 0
  | .guard _ | .result => 1
  | .equals | .divRem _ => 2
  | .safeDivRem _ => 3

def isDivision : Node.Kind → Bool
  | .divRem _ | .safeDivRem _ => true
  | .parameter _ | .constant _ | .equals | .guard _ | .result => false

end Node.Kind

structure Node where
  kind : Node.Kind
  stamp : Stamp
  inputs : List NodeId
  deriving DecidableEq, Repr

def Node.redirect (old new : NodeId) (node : Node) : Node :=
  { node with inputs := node.inputs.map fun input ↦ if input = old then new else input }

/-- One line of a listing: number, operation, inputs if there are any, stamp. -/
def Node.text (id : NodeId) (node : Node) : String :=
  let inputs :=
    if node.inputs.isEmpty then "" else " " ++ ", ".intercalate (node.inputs.map NodeId.text)
  s!"{NodeId.text id} = {node.kind.text}{inputs} : {node.stamp.text}"

end DivGuard
