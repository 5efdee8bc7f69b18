import DivGuard.Graph.Redirect

/-!
# Look-ups after an edit

What the look-ups of a graph return once nodes were added to it or its inputs were renamed.
`append` adds nodes unchecked; `addAll` does the same whenever it succeeds, and it succeeds if every
input is a live node of the graph or one of the nodes added before.
-/

namespace DivGuard

def Node.mapInputs (f : NodeId → NodeId) (node : Node) : Node :=
  { node with inputs := node.inputs.map f }

/-- The renaming behind a redirection. -/
def redirection (old new : NodeId) (input : NodeId) : NodeId :=
  if input = old then new else input

theorem Node.redirect_eq_mapInputs (old new : NodeId) :
    Node.redirect old new = Node.mapInputs (redirection old new) := rfl

theorem Node.mapInputs_mapInputs (f f' : NodeId → NodeId) (node : Node) :
    (node.mapInputs f).mapInputs f' = node.mapInputs (f' ∘ f) := by
  simp [Node.mapInputs]

namespace Graph

variable {g : Graph} {node : Node} {id : NodeId}

theorem node?_eq_none_of_size_le (h : g.slots.size ≤ id) : g.node? id = none := by
  simp [node?, Array.getElem?_eq_none h]

theorem lt_size_of_node? (h : g.node? id = some node) : id < g.slots.size := by
  apply Nat.lt_of_not_le
  intro hge
  simp [node?_eq_none_of_size_le hge] at h

theorem contains_iff : g.contains id = true ↔ ∃ node, g.node? id = some node := by
  simp [contains, Option.isSome_iff_exists]

theorem contains_of_node? (h : g.node? id = some node) : g.contains id = true :=
  contains_iff.mpr ⟨node, h⟩

theorem lt_size_of_contains (h : g.contains id = true) : id < g.slots.size := by
  obtain ⟨node, hnode⟩ := contains_iff.mp h
  exact lt_size_of_node? hnode

@[simp] theorem mem_nodeIds : id ∈ g.nodeIds ↔ g.contains id = true := by
  simp only [nodeIds, List.mem_filter, List.mem_range, and_iff_right_iff_imp]
  exact lt_size_of_contains

theorem nodeIds_pairwise (g : Graph) : g.nodeIds.Pairwise (· < ·) :=
  List.pairwise_lt_range.filter _

theorem mem_filter_nodeIds {q : Node → Bool} :
    id ∈ g.nodeIds.filter (fun id ↦ (g.node? id).any q) ↔
      ∃ node, g.node? id = some node ∧ q node = true := by
  simp only [List.mem_filter, mem_nodeIds, Option.any_eq_true, contains_iff]
  constructor
  · rintro ⟨-, hnode⟩
    exact hnode
  · rintro ⟨node, hnode, hq⟩
    exact ⟨⟨node, hnode⟩, node, hnode, hq⟩

theorem forall_node?_iff {p : NodeId → Node → Prop} :
    (∀ id node, g.node? id = some node → p id node) ↔
      ∀ id ∈ g.nodeIds, ∀ node ∈ g.node? id, p id node := by
  constructor
  · intro h id _ node hnode
    exact h id node hnode
  · intro h id node hnode
    exact h id (mem_nodeIds.mpr (contains_of_node? hnode)) node hnode

theorem eq_of_node? {g h : Graph} (hname : g.name = h.name) (hsize : g.slots.size = h.slots.size)
    (hnode : ∀ id < g.slots.size, g.node? id = h.node? id) : g = h := by
  obtain ⟨name, slots⟩ := g
  obtain ⟨name', slots'⟩ := h
  obtain rfl : name = name' := hname
  refine congrArg (Graph.mk name) (Array.ext hsize fun id hid hid' ↦ ?_)
  simpa [node?, hid, hid'] using hnode id hid

theorem contains_push (g : Graph) (node : Node) (id : NodeId) :
    (g.push node).contains id = (decide (id = g.slots.size) || g.contains id) := by
  by_cases h : id = g.slots.size <;> simp [contains, node?_push, h]

@[simp] theorem size_push (g : Graph) (node : Node) :
    (g.push node).slots.size = g.slots.size + 1 := by
  simp [push]

@[simp] theorem size_redirect (g : Graph) (old new : NodeId) :
    (g.redirect old new).slots.size = g.slots.size := by
  simp [redirect]

theorem contains_redirect (g : Graph) (old new id : NodeId) :
    (g.redirect old new).contains id = (decide (id ≠ old) && g.contains id) := by
  by_cases h : id = old <;> simp [contains, node?_redirect, h]

theorem replace_of_live {old new : NodeId} (hold : g.contains old = true)
    (hnew : g.contains new = true) : g.replace old new = .ok (g.redirect old new) := by
  simp [replace, hold, hnew]

/-- The graph with more nodes, which get the next numbers. -/
def append (g : Graph) (nodes : List Node) : Graph := nodes.foldl push g

@[simp] theorem append_nil (g : Graph) : g.append [] = g := rfl

@[simp] theorem append_cons (g : Graph) (node : Node) (nodes : List Node) :
    g.append (node :: nodes) = (g.push node).append nodes := rfl

@[simp] theorem name_append (g : Graph) (nodes : List Node) : (g.append nodes).name = g.name := by
  induction nodes generalizing g with
  | nil => rfl
  | cons node nodes ih =>
      rw [append_cons, ih]
      rfl

@[simp] theorem size_append (g : Graph) (nodes : List Node) :
    (g.append nodes).slots.size = g.slots.size + nodes.length := by
  induction nodes generalizing g with
  | nil => rfl
  | cons node nodes ih =>
      rw [append_cons, ih, size_push, List.length_cons]
      omega

theorem node?_append (g : Graph) (nodes : List Node) (id : NodeId) :
    (g.append nodes).node? id =
      if id < g.slots.size then g.node? id else nodes[id - g.slots.size]? := by
  induction nodes generalizing g with
  | nil =>
      by_cases h : id < g.slots.size
      · simp [h]
      · simp [h, node?_eq_none_of_size_le (Nat.le_of_not_lt h)]
  | cons node nodes ih =>
      rw [append_cons, ih, size_push, node?_push]
      rcases Nat.lt_trichotomy id g.slots.size with h | h | h
      · simp [h, Nat.lt_succ_of_lt h, Nat.ne_of_lt h]
      · simp [h]
      · obtain ⟨k, rfl⟩ := Nat.exists_eq_add_of_lt h
        have hk : g.slots.size + k + 1 - g.slots.size = k + 1 := by omega
        have hk' : g.slots.size + k + 1 - (g.slots.size + 1) = k := by omega
        simp [hk, hk', show ¬g.slots.size + k + 1 < g.slots.size + 1 by omega,
          show ¬g.slots.size + k + 1 < g.slots.size by omega]

theorem node?_append_of_lt (nodes : List Node) (h : id < g.slots.size) :
    (g.append nodes).node? id = g.node? id := by
  rw [node?_append, if_pos h]

theorem node?_append_size_add (g : Graph) (nodes : List Node) (j : Nat) :
    (g.append nodes).node? (g.slots.size + j) = nodes[j]? := by
  rw [node?_append, if_neg (Nat.not_lt.mpr (Nat.le_add_right _ _)), Nat.add_sub_cancel_left]

theorem add_of_live (h : ∀ input ∈ node.inputs, g.contains input = true) :
    g.add node = .ok (g.slots.size, g.push node) := by
  have hfind : (node.inputs.find? fun input ↦ !g.contains input) = none := by
    simpa [List.find?_eq_none] using h
  simp only [add, hfind]

theorem add_eq_ok_iff {h : Graph} :
    g.add node = .ok (id, h) ↔
      (∀ input ∈ node.inputs, g.contains input = true) ∧ id = g.slots.size ∧ h = g.push node := by
  constructor
  · intro hadd
    unfold add at hadd
    split at hadd
    · cases hadd
    · next hfind =>
      cases hadd
      exact ⟨by simpa [List.find?_eq_none] using hfind, rfl, rfl⟩
  · rintro ⟨hlive, rfl, rfl⟩
    exact add_of_live hlive

/-- Adds nodes in order up to the first that is refused. -/
def addAll (g : Graph) : List Node → Except UnitError Unit × Graph
  | [] => (.ok (), g)
  | node :: rest =>
    match g.add node with
    | .error e => (.error e, g)
    | .ok (_, g) => g.addAll rest

/-- Nodes are added one by one, so each may also name those added before it. -/
theorem addAll_of_live {nodes : List Node}
    (h : ∀ i node, nodes[i]? = some node → ∀ input ∈ node.inputs,
      g.contains input = true ∨ (g.slots.size ≤ input ∧ input < g.slots.size + i)) :
    g.addAll nodes = (.ok (), g.append nodes) := by
  induction nodes generalizing g with
  | nil => rfl
  | cons node nodes ih =>
      have hadd : g.add node = .ok (g.slots.size, g.push node) := by
        apply add_of_live
        intro input hinput
        rcases h 0 node rfl input hinput with hlive | hnew
        · exact hlive
        · lia
      have hrest : (g.push node).addAll nodes = (.ok (), (g.push node).append nodes) := by
        apply ih
        intro i next hnext input hinput
        rw [contains_push, size_push]
        rcases h (i + 1) next (by simpa using hnext) input hinput with hlive | hnew
        · exact .inl (by simp [hlive])
        · by_cases heq : input = g.slots.size
          · exact .inl (by simp [heq])
          · exact .inr (by lia)
      simp only [addAll, hadd, hrest, append_cons]

/-- A sequence is refused at the first node with an input that is not live by then, and the nodes
before that one stay. -/
theorem addAll_cases (g : Graph) (nodes : List Node) :
    g.addAll nodes = (.ok (), g.append nodes) ∨
      ∃ k node dead, nodes[k]? = some node ∧
        (node.inputs.find? fun input ↦ !(g.append (nodes.take k)).contains input) = some dead ∧
        g.addAll nodes = (.error (.invalidNode dead), g.append (nodes.take k)) := by
  induction nodes generalizing g with
  | nil => exact .inl rfl
  | cons node nodes ih =>
      cases hfind : node.inputs.find? fun input ↦ !g.contains input with
      | some dead => exact .inr ⟨0, node, dead, rfl, hfind, by simp only [addAll, add, hfind]; rfl⟩
      | none =>
          have hadd : g.add node = .ok (g.slots.size, g.push node) := by simp only [add, hfind]
          simp only [addAll, hadd, append_cons]
          rcases ih (g.push node) with hall | ⟨k, refused, dead, hk, hdead, hpart⟩
          · exact .inl hall
          · exact .inr ⟨k + 1, refused, dead, hk, hdead, hpart⟩

/-- What adding a node with live inputs keeps, adding nodes in order keeps, refused or not. -/
theorem addAll_induction {p : Graph → Prop}
    (hpush : ∀ g node, (∀ input ∈ node.inputs, g.contains input = true) → p g → p (g.push node))
    (nodes : List Node) (hg : p g) : p (g.addAll nodes).2 := by
  induction nodes generalizing g with
  | nil => exact hg
  | cons node nodes ih =>
      cases hadd : g.add node with
      | error e => simpa only [addAll, hadd] using hg
      | ok added =>
          obtain ⟨id, h⟩ := added
          obtain ⟨hlive, -, rfl⟩ := add_eq_ok_iff.mp hadd
          simpa only [addAll, hadd] using ih (hpush g node hlive hg)

end Graph

end DivGuard
