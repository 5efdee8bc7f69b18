import DivGuard.Graph.Basic
import DivGuard.Machine.Outcome

/-!
# What a node demands

The meaning of a node is written down as a demand: either its outcome is known, or it asks for the
outcome of one operand and goes on from there.  How operands are evaluated, afresh or from a table,
is not the node's business; `Demand.answer` leaves it open.
-/

namespace DivGuard

inductive Demand where
  | done (result : Except UnitError Outcome)
  | ask (operand : NodeId) (next : Outcome → Demand)

namespace Demand

/-- Asks for a value.  Any other outcome stops the node with that outcome. -/
def askValue (operand : NodeId) (next : Int64 → Demand) : Demand :=
  .ask operand fun
    | .value v => next v
    | .fallback reason => .done (.ok (.fallback reason))
    | .trap => .done (.ok .trap)

/-- Answers a demand with a given way to evaluate operands.  The first error ends it. -/
def answer (eval : NodeId → Except UnitError Outcome) : Demand → Except UnitError Outcome
  | .done result => result
  | .ask operand next =>
    match eval operand with
    | .error e => .error e
    | .ok outcome => (next outcome).answer eval

end Demand

/-- The word that stands for a constant.  References are their addresses, null is zero. -/
def Constant.word : Constant → Int64
  | .int _ value => value
  | .null _ => 0
  | .object address _ => address.toInt64

structure Run where
  target : Target
  args : List Int64
  deriving DecidableEq, Repr

namespace Run

def argument (run : Run) (index bits : Nat) : Except UnitError Outcome :=
  match run.args[index]? with
  | none => .error (.missingArgument index run.args.length)
  | some v => .ok (.value (signExtend bits v))

/-- The demand of a node.  Nodes that are not integers count as a word wide; a node without just the
inputs its kind takes is invalid. -/
def demand (run : Run) (id : NodeId) (node : Node) : Demand :=
  let bits := node.stamp.bits?.getD run.target.wordBits
  match node.kind, node.inputs with
  | .parameter index, [] => .done (run.argument index bits)
  | .constant c, [] => .done (.ok (.value c.word))
  | .equals, [x, y] =>
    .askValue x fun a ↦ .askValue y fun b ↦ .done (.ok (.value (if a = b then 1 else 0)))
  | .guard request, [condition] =>
    .askValue condition fun v ↦
      .done (.ok (if v = 0 then .value 0 else .fallback request.reason))
  | .divRem op, [x, y] =>
    .askValue x fun a ↦ .askValue y fun b ↦ .done (.ok (run.target.divide op bits a b))
  | .safeDivRem op, [x, y, guard] =>
    .askValue guard fun _ ↦
      .askValue x fun a ↦ .askValue y fun b ↦ .done (.ok (run.target.divide op bits a b))
  | .result, [value] => .ask value fun outcome ↦ .done (.ok outcome)
  | _, _ => .done (.error (.invalidNode id))

end Run

end DivGuard
