import DivGuard.Proofs.Graph.Dependence

/-!
# Graphs built by front ends

A front end adds parameters, constants, unchecked divisions and results, and never edits what it has
added.  Its graphs have the inputs of a node before the node itself and hold no guarded divisions.
-/

namespace DivGuard.Graph

variable {g h : Graph} {node : Node} {id : NodeId}

/-- The graphs that can be made of an empty one by adding nodes.  Parameters are integers. -/
inductive Built : Graph → Prop
  | empty (name : String) : Built { name }
  | parameter {g : Graph} (hg : Built g) (index : Nat) (range : IntRange) :
      Built (g.addParameter index (.int range)).2
  | constant {g h : Graph} (hg : Built g) {c : Constant} {encoding? : Option Encoding} {id : NodeId}
      (hadd : g.addConstant c encoding? = .ok (id, h)) : Built h
  | divRem {g h : Graph} (hg : Built g) {op : DivOp} {x y id : NodeId}
      (hadd : g.addDivRem op x y = .ok (id, h)) : Built h
  | result {g h : Graph} (hg : Built g) {value id : NodeId}
      (hadd : g.addResult value = .ok (id, h)) : Built h

/-- A graph that divides its two parameters, of widths `m` and `n`. -/
theorem Built.division (name : String) (op : DivOp) (m n : Nat) :
    Built { name, slots := #[some ⟨.parameter 0, .anyInt m, []⟩, some ⟨.parameter 1, .anyInt n, []⟩,
      some ⟨.divRem op, .anyInt m, [0, 1]⟩, some ⟨.result, .void, [2]⟩] } := by
  have hparameters : Built { name, slots := #[some ⟨.parameter 0, .anyInt m, []⟩,
      some ⟨.parameter 1, .anyInt n, []⟩] } :=
    .parameter (.parameter (.empty name) 0 (.full m)) 1 (.full n)
  have hdivision : Built { name, slots := #[some ⟨.parameter 0, .anyInt m, []⟩,
      some ⟨.parameter 1, .anyInt n, []⟩, some ⟨.divRem op, .anyInt m, [0, 1]⟩] } :=
    .divRem hparameters (show addDivRem _ op 0 1 = .ok (2, _) from rfl)
  exact .result hdivision (show addResult _ 2 = .ok (3, _) from rfl)

/-- Two octets and the unsigned quotient of them. -/
def octets : Graph where
  name := "octets"
  slots := #[some ⟨.parameter 0, .anyInt 8, []⟩, some ⟨.parameter 1, .anyInt 8, []⟩,
    some ⟨.divRem .udiv, .anyInt 8, [0, 1]⟩, some ⟨.result, .void, [2]⟩]

theorem octets_built : octets.Built := .division "octets" .udiv 8 8

structure Unlowered (g : Graph) : Prop where
  ordered : g.Ordered
  closed : g.Closed
  bare : ∀ n node op, g.node? n = some node → node.kind ≠ .safeDivRem op

theorem Unlowered.empty (name : String) : Unlowered { name } where
  ordered := by
    rintro user input ⟨node, hnode, -⟩
    simp [node?] at hnode
  closed := by
    rintro user input ⟨node, hnode, -⟩
    simp [node?] at hnode
  bare := by
    intro n node op hnode
    simp [node?] at hnode

theorem Unlowered.add (hg : g.Unlowered) (hkind : ∀ op, node.kind ≠ .safeDivRem op)
    (hadd : g.add node = .ok (id, h)) : h.Unlowered := by
  obtain ⟨hlive, -, rfl⟩ := add_eq_ok_iff.mp hadd
  refine ⟨?_, ?_, ?_⟩
  · intro user input huse
    rcases uses_push_cases huse with ⟨rfl, hinput⟩ | hold
    · exact lt_size_of_contains (hlive input hinput)
    · exact hg.ordered user input hold
  · exact hg.closed.push hlive
  · intro n found op hfound
    rw [node?_push] at hfound
    split at hfound
    · cases hfound
      exact hkind op
    · exact hg.bare n found op hfound

theorem Built.unlowered (h : g.Built) : g.Unlowered := by
  induction h with
  | empty name => exact .empty name
  | @parameter g _ index range ih =>
      have hadd : g.add ⟨.parameter index, .int range, []⟩ =
          .ok (g.addParameter index (.int range)) := add_of_live (by simp)
      exact ih.add (by simp) hadd
  | constant _ hadd ih =>
      unfold addConstant at hadd
      split at hadd
      · cases hadd
      · exact ih.add (by simp) hadd
  | divRem _ hadd ih =>
      unfold addDivRem at hadd
      split at hadd
      · cases hadd
      · split at hadd
        · cases hadd
        · exact ih.add (by simp) hadd
  | result _ hadd ih => exact ih.add (by simp) hadd

theorem Built.acyclic (h : g.Built) : g.Acyclic := h.unlowered.ordered.acyclic

/-- A node as a front end adds it: parameters are integers, constants and divisions have the stamps
that follow from the value and the dividend. -/
inductive FrontEnd (g : Graph) : Node → Prop
  | parameter (index : Nat) (range : IntRange) : FrontEnd g ⟨.parameter index, .int range, []⟩
  | constant {c : Constant} {encoding? : Option Encoding} {stamp : Stamp}
      (hstamp : Stamp.ofConstant c encoding? = .ok stamp) : FrontEnd g ⟨.constant c, stamp, []⟩
  | divRem (op : DivOp) {x : NodeId} (y : NodeId) {dividend : Node} {bits : Nat}
      (hx : g.node? x = some dividend) (hbits : dividend.stamp.bits? = some bits) :
      FrontEnd g ⟨.divRem op, .anyInt bits, [x, y]⟩
  | result (value : NodeId) : FrontEnd g ⟨.result, .void, [value]⟩

theorem FrontEnd.push (h : g.FrontEnd node) (next : Node) : (g.push next).FrontEnd node := by
  cases h with
  | parameter index range => exact .parameter index range
  | constant hstamp => exact .constant hstamp
  | divRem op y hx hbits =>
      refine .divRem op y ?_ hbits
      rw [node?_push, if_neg (Nat.ne_of_lt (lt_size_of_node? hx))]
      exact hx
  | result value => exact .result value

def FrontEnds (g : Graph) : Prop := ∀ id node, g.node? id = some node → g.FrontEnd node

theorem FrontEnds.push (hg : g.FrontEnds) (hnode : g.FrontEnd node) : (g.push node).FrontEnds := by
  intro id found hfound
  rw [node?_push] at hfound
  split at hfound
  · cases hfound
    exact hnode.push node
  · exact (hg id found hfound).push node

theorem FrontEnds.add (hg : g.FrontEnds) (hnode : g.FrontEnd node)
    (hadd : g.add node = .ok (id, h)) :
    h.FrontEnds := by
  obtain ⟨-, -, rfl⟩ := add_eq_ok_iff.mp hadd
  exact hg.push hnode

theorem Built.frontEnds (h : g.Built) : g.FrontEnds := by
  induction h with
  | empty name =>
      intro id node hnode
      simp [node?] at hnode
  | parameter _ index range ih => exact ih.push (.parameter index range)
  | constant _ hadd ih =>
      unfold addConstant at hadd
      split at hadd
      · cases hadd
      · next stamp hstamp => exact ih.add (.constant hstamp) hadd
  | @divRem g h _ op x y id hadd ih =>
      unfold addDivRem Graph.node at hadd
      cases hx : g.node? x with
      | none => simp [hx] at hadd
      | some dividend =>
          simp only [hx] at hadd
          split at hadd
          · cases hadd
          · next bits hbits => exact ih.add (.divRem op y hx hbits) hadd
  | result _ hadd ih => exact ih.add (.result _) hadd

end DivGuard.Graph
