import DivGuard.Stamp.Merge

/-!
# Graphs

Nodes are numbered in the order in which they are added.  A deleted node leaves an empty slot, so
numbers are never used twice and stay valid while a pass rewrites the graph.

`node?` is the view of a graph: everything else about its nodes is said in terms of it.
-/

namespace DivGuard

structure Graph where
  name : String := ""
  /-- Slot `i` holds node `i`, or nothing once that node is deleted. -/
  slots : Array (Option Node) := #[]
  deriving DecidableEq, Repr

namespace Graph

def node? (g : Graph) (id : NodeId) : Option Node := g.slots[id]?.join

def contains (g : Graph) (id : NodeId) : Bool := (g.node? id).isSome

def node (g : Graph) (id : NodeId) : Except UnitError Node :=
  match g.node? id with
  | none => .error (.invalidNode id)
  | some node => .ok node

/-- Numbers of the live nodes, in increasing order. -/
def nodeIds (g : Graph) : List NodeId := (List.range g.slots.size).filter g.contains

def liveCount (g : Graph) : Nat := g.nodeIds.length

def usages (g : Graph) (id : NodeId) : List NodeId :=
  g.nodeIds.filter fun user ↦ (g.node? user).any fun node ↦ node.inputs.contains id

/-- The graph with one more node, which gets the next number. -/
def push (g : Graph) (node : Node) : Graph := { g with slots := g.slots.push (some node) }

theorem node?_push (g : Graph) (node : Node) (id : NodeId) :
    (g.push node).node? id = if id = g.slots.size then some node else g.node? id := by
  simp only [node?, push, Array.getElem?_push]
  split <;> simp

/-- Adds a node.  All inputs must be live; the first that is not is reported. -/
def add (g : Graph) (node : Node) : Except UnitError (NodeId × Graph) :=
  match node.inputs.find? fun input ↦ !g.contains input with
  | some dead => .error (.invalidNode dead)
  | none => .ok (g.slots.size, g.push node)

def addParameter (g : Graph) (index : Nat) (stamp : Stamp) : NodeId × Graph :=
  (g.slots.size, g.push ⟨.parameter index, stamp, []⟩)

/-- Adds a constant with the stamp that describes it.  A narrow one needs an encoding. -/
def addConstant (g : Graph) (c : Constant) (encoding? : Option Encoding) :
    Except UnitError (NodeId × Graph) :=
  match Stamp.ofConstant c encoding? with
  | .error e => .error e
  | .ok stamp => g.add ⟨.constant c, stamp, []⟩

/-- Adds the unchecked division of `x` by `y`, as wide as `x`. -/
def addDivRem (g : Graph) (op : DivOp) (x y : NodeId) : Except UnitError (NodeId × Graph) :=
  match g.node x with
  | .error e => .error e
  | .ok node =>
    match node.stamp.bits? with
    | none => .error (.unsupportedWidth op 0)
    | some bits => g.add ⟨.divRem op, .anyInt bits, [x, y]⟩

def addResult (g : Graph) (value : NodeId) : Except UnitError (NodeId × Graph) :=
  g.add ⟨.result, .void, [value]⟩

/-- The operation and operands of an unchecked division, if the node is one with two inputs. -/
def division? (g : Graph) (id : NodeId) : Option (DivOp × NodeId × NodeId) :=
  match g.node? id with
  | some ⟨.divRem op, _, [x, y]⟩ => some (op, x, y)
  | _ => none

def text (g : Graph) : String :=
  s!"Graph {g.name}\n" ++ String.join (g.nodeIds.map fun id ↦
    (g.node? id).elim "" fun node ↦ s!"  {node.text id}\n")

end Graph

end DivGuard
