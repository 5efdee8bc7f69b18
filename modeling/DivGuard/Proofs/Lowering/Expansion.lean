import DivGuard.Proofs.Graph.Dependence
import DivGuard.Proofs.Lowering.Substitution

/-!
# The shape of a lowered graph

`Expansion l g ds h` says all about the graph `h` that lowering the divisions `ds` of `g` leaves, in
the order of the list: which slots there are and what is in each of them.  Lowering one more
division turns an expansion along `ds` into one along `ds ++ [d]`.  As every new node is looked up
by its number, it does not matter whether operands stand before or behind the divisions that use
them.
-/

namespace DivGuard

variable {l : Lowering} {g h : Graph} {ds : List NodeId} {d n x y : NodeId} {key : Template.Key}

/-- What stands for a node once the divisions `ds` were lowered in this order. -/
def Graph.image (g : Graph) (ds : List NodeId) (n : NodeId) : NodeId :=
  if n ∈ ds then g.slots.size + 4 * ds.idxOf n + 3 else n

structure Expansion (l : Lowering) (g : Graph) (ds : List NodeId) (h : Graph) : Prop where
  name_eq : h.name = g.name
  size_eq : h.slots.size = g.slots.size + 4 * ds.length
  nodup : ds.Nodup
  decided : ∀ d ∈ ds, ∃ key x y, l.decision g d = .rewrite key x y
  kept : ∀ id, id < g.slots.size →
    h.node? id = if id ∈ ds then none else (g.node? id).map (Node.mapInputs (g.image ds))
  added : ∀ (i : Nat) d key x y, ds[i]? = some d → l.decision g d = .rewrite key x y →
    ∀ j, j < 4 → h.node? (g.slots.size + 4 * i + j) =
      (Template.guarded l.policy key (g.image ds x) (g.image ds y) (g.slots.size + 4 * i))[j]?

namespace Graph

theorem image_of_not_mem (hn : n ∉ ds) : g.image ds n = n := if_neg hn

theorem image_of_getElem? (hnodup : ds.Nodup) {i : Nat} (hi : ds[i]? = some d) :
    g.image ds d = g.slots.size + 4 * i + 3 := by
  obtain ⟨hlt, rfl⟩ := List.getElem?_eq_some_iff.mp hi
  rw [image, if_pos (List.getElem_mem hlt), hnodup.idxOf_getElem]

@[simp] theorem image_nil (g : Graph) : g.image [] = fun n ↦ n := rfl

theorem image_append_singleton (hd : d ∉ ds) (hlt : d < g.slots.size) :
    g.image (ds ++ [d]) =
      redirection d (g.slots.size + 4 * ds.length + 3) ∘ g.image ds := by
  funext n
  simp only [image, redirection, Function.comp_apply, List.mem_append, List.mem_singleton]
  by_cases hn : n ∈ ds
  · have hne : g.slots.size + 4 * ds.idxOf n + 3 ≠ d := by lia
    simp [hn, hne, List.idxOf_append_of_mem hn]
  · by_cases hnd : n = d
    · subst hnd
      simp [hn, List.idxOf_append_of_notMem hn]
    · simp [hn, hnd]

end Graph

namespace Expansion

theorem refl (l : Lowering) (g : Graph) : Expansion l g [] g where
  name_eq := rfl
  size_eq := rfl
  nodup := List.nodup_nil
  decided := by simp
  kept := by
    intro id _
    cases g.node? id with
    | none => rfl
    | some node => simp [Node.mapInputs]
  added := by simp

theorem contains_of_mem (hx : Expansion l g ds h) (hd : d ∈ ds) : g.contains d = true := by
  obtain ⟨key, x, y, hdecision⟩ := hx.decided d hd
  exact Lowering.contains_of_rewrite hdecision

theorem lt_size_of_mem (hx : Expansion l g ds h) (hd : d ∈ ds) : d < g.slots.size :=
  Graph.lt_size_of_contains (hx.contains_of_mem hd)

theorem size_le (hx : Expansion l g ds h) : g.slots.size ≤ h.slots.size := by
  rw [hx.size_eq]
  exact Nat.le_add_right _ _

theorem guard (hx : Expansion l g ds h) (hd : d ∉ ds)
    (hdecision : l.decision g d = .rewrite key x y) :
    Expansion l g (ds ++ [d]) (h.guard l.policy key d (g.image ds x) (g.image ds y)) := by
  have hlt : d < g.slots.size := Graph.lt_size_of_contains (Lowering.contains_of_rewrite hdecision)
  have himage : g.image (ds ++ [d]) = redirection d (h.slots.size + 3) ∘ g.image ds := by
    rw [hx.size_eq]
    exact Graph.image_append_singleton hd hlt
  have hfixed : ∀ n, g.slots.size ≤ n → redirection d (h.slots.size + 3) n = n :=
    fun n hn ↦ if_neg (by lia)
  refine ⟨?_, ?_, ?_, ?_, ?_, ?_⟩
  · exact (Graph.name_append _ _).trans hx.name_eq
  · simp [Graph.guard, hx.size_eq]
    omega
  · exact hx.nodup.append (List.nodup_singleton d) (by simpa using hd)
  · intro e he
    rcases List.mem_append.mp he with he | he
    · exact hx.decided e he
    · obtain rfl := List.mem_singleton.mp he
      exact ⟨key, x, y, hdecision⟩
  · intro n hn
    by_cases hnd : n = d
    · subst hnd
      simp [Graph.guard, Graph.node?_redirect]
    · rw [Graph.node?_guard _ _ _ _ hnd, Graph.node?_append_of_lt _ (hn.trans_le hx.size_le),
        hx.kept n hn, himage]
      by_cases hmem : n ∈ ds
      · simp [hmem]
      · simp [hmem, hnd, Function.comp_def, Node.mapInputs_mapInputs]
  · intro i e key' x' y' hi he j hj
    rw [Graph.node?_guard _ _ _ _ (by lia)]
    by_cases hold : i < ds.length
    · rw [List.getElem?_append_left hold] at hi
      rw [Graph.node?_append_of_lt _ (by rw [hx.size_eq]; lia), hx.added i e key' x' y' hi he j hj,
        ← List.getElem?_map, Template.map_guarded _ _ _ _ _ fun j _ ↦ hfixed _ (by lia), himage]
      rfl
    · have hlast : i = ds.length := by
        have := (List.getElem?_eq_some_iff.mp hi).1
        rw [List.length_append, List.length_singleton] at this
        omega
      subst hlast
      obtain rfl : d = e := by simpa using hi
      obtain ⟨rfl, rfl, rfl⟩ : key = key' ∧ x = x' ∧ y = y' := by simpa [hdecision] using he
      have hsize : g.slots.size ≤ h.slots.size := hx.size_le
      rw [← hx.size_eq, Graph.node?_append_size_add, ← List.getElem?_map,
        Template.map_guarded _ _ _ _ _ fun j _ ↦ hfixed _ (by lia), himage]
      rfl

/-! ## What is where -/

theorem eq_of_nil (hx : Expansion l g [] h) : h = g := by
  apply Graph.eq_of_node? hx.name_eq hx.size_eq
  intro id hid
  have hlt : id < g.slots.size := by simpa [hx.size_eq] using hid
  rw [hx.kept id hlt]
  cases g.node? id with
  | none => rfl
  | some node => simp [Node.mapInputs]

theorem node?_of_mem (hx : Expansion l g ds h) (hn : n ∈ ds) : h.node? n = none := by
  rw [hx.kept n (hx.lt_size_of_mem hn), if_pos hn]

theorem node?_of_not_mem (hx : Expansion l g ds h) (hlt : n < g.slots.size) (hn : n ∉ ds) :
    h.node? n = (g.node? n).map (Node.mapInputs (g.image ds)) := by
  rw [hx.kept n hlt, if_neg hn]

theorem fragment (hx : Expansion l g ds h) {i : Nat} (hi : ds[i]? = some d)
    (hdecision : l.decision g d = .rewrite key x y) :
    let base := g.slots.size + 4 * i
    h.node? base = some ⟨.constant (.ofInt key.width 0), .oneInt key.width 0, []⟩ ∧
      h.node? (base + 1) = some ⟨.equals, .int (.between 32 0 1), [g.image ds y, base]⟩ ∧
      h.node? (base + 2) = some ⟨.guard (l.policy .divisionByZero), .void, [base + 1]⟩ ∧
      h.node? (base + 3) = some ⟨.safeDivRem key.op, .anyInt key.width,
        [g.image ds x, g.image ds y, base + 2]⟩ := by
  have hadded := hx.added i d key x y hi hdecision
  exact ⟨hadded 0 (by decide), hadded 1 (by decide), hadded 2 (by decide), hadded 3 (by decide)⟩

theorem exists_of_new (hx : Expansion l g ds h) (hn : g.slots.size ≤ n)
    (hlive : h.contains n = true) :
    ∃ (i : Nat) (d : NodeId) (key : Template.Key) (x y : NodeId) (j : Nat), ds[i]? = some d ∧
      l.decision g d = .rewrite key x y ∧ j < 4 ∧ n = g.slots.size + 4 * i + j := by
  have hlt : n < h.slots.size := Graph.lt_size_of_contains hlive
  have hsize := hx.size_eq
  have hi : (n - g.slots.size) / 4 < ds.length := by lia
  obtain ⟨key, x, y, hdecision⟩ := hx.decided _ (List.getElem_mem hi)
  exact ⟨_, _, key, x, y, (n - g.slots.size) % 4, List.getElem?_eq_getElem hi, hdecision,
    Nat.mod_lt _ (by decide), by lia⟩

/-- A node of a lowered graph was there before, with other inputs, or is one of those that stand for
a division. -/
theorem node_cases (hx : Expansion l g ds h) {node : Node} (hnode : h.node? n = some node) :
    (n ∉ ds ∧ ∃ before, g.node? n = some before ∧ node = before.mapInputs (g.image ds)) ∨
    ∃ (i : Nat) (d : NodeId) (key : Template.Key) (x y : NodeId) (j : Nat), ds[i]? = some d ∧
      l.decision g d = .rewrite key x y ∧ j < 4 ∧ n = g.slots.size + 4 * i + j ∧
      (Template.guarded l.policy key (g.image ds x) (g.image ds y)
        (g.slots.size + 4 * i))[j]? = some node := by
  rcases Nat.lt_or_ge n g.slots.size with hlt | hge
  · have hmem : n ∉ ds := fun hmem ↦ by simp [hx.node?_of_mem hmem] at hnode
    rw [hx.node?_of_not_mem hlt hmem] at hnode
    obtain ⟨before, hbefore, rfl⟩ := Option.map_eq_some_iff.mp hnode
    exact .inl ⟨hmem, before, hbefore, rfl⟩
  · obtain ⟨i, d, key, x, y, j, hi, hdecision, hj, rfl⟩ :=
      hx.exists_of_new hge (Graph.contains_of_node? hnode)
    rw [hx.added i d key x y hi hdecision j hj] at hnode
    exact .inr ⟨i, d, key, x, y, j, hi, hdecision, hj, rfl, hnode⟩

theorem contains_image (hx : Expansion l g ds h) (hn : g.contains n = true) :
    h.contains (g.image ds n) = true := by
  by_cases hmem : n ∈ ds
  · obtain ⟨i, hi⟩ := List.getElem?_of_mem hmem
    obtain ⟨key, x, y, hdecision⟩ := hx.decided n hmem
    rw [Graph.image_of_getElem? hx.nodup hi]
    exact Graph.contains_of_node? (hx.fragment hi hdecision).2.2.2
  · obtain ⟨node, hnode⟩ := Graph.contains_iff.mp hn
    rw [Graph.image_of_not_mem hmem, Graph.contains,
      hx.node?_of_not_mem (Graph.lt_size_of_contains hn) hmem, hnode]
    rfl

/-! ## Decisions on a lowered graph -/

theorem decision_of_not_mem (hx : Expansion l g ds h) (l' : Lowering) (hlt : n < g.slots.size)
    (hn : n ∉ ds) : l'.decision h n = (l'.decision g n).mapOperands (g.image ds) :=
  Lowering.decision_of_mapInputs (hx.node?_of_not_mem hlt hn)

theorem division_of_new (hx : Expansion l g ds h) (hn : g.slots.size ≤ n) {node : Node}
    (hnode : h.node? n = some node) (hdivision : node.kind.isDivision = true) :
    ∃ d ∈ ds, ∃ key x y guard, l.decision g d = .rewrite key x y ∧ n = g.image ds d ∧
      node = ⟨.safeDivRem key.op, .anyInt key.width, [g.image ds x, g.image ds y, guard]⟩ := by
  rcases hx.node_cases hnode with
    ⟨-, before, hbefore, -⟩ | ⟨i, d, key, x, y, j, hi, hdecision, -, rfl, hadded⟩
  · exact absurd (Graph.lt_size_of_node? hbefore) (Nat.not_lt.mpr hn)
  · obtain ⟨rfl, hsafe⟩ := Template.eq_of_isDivision hadded hdivision
    exact ⟨d, List.mem_of_getElem? hi, key, x, y, _, hdecision,
      (Graph.image_of_getElem? hx.nodup hi).symm, hsafe⟩

theorem safe_of_new (hx : Expansion l g ds h) (hn : g.slots.size ≤ n) {node : Node}
    (hnode : h.node? n = some node) (hdivision : node.kind.isDivision = true) :
    ∃ op, node.kind = .safeDivRem op := by
  obtain ⟨d, -, key, x, y, guard, -, -, rfl⟩ := hx.division_of_new hn hnode hdivision
  exact ⟨key.op, rfl⟩

theorem decision_eq_rewrite (hx : Expansion l g ds h) {x' y' : NodeId}
    (hdecision : l.decision h n = .rewrite key x' y') :
    n ∉ ds ∧ ∃ x y, l.decision g n = .rewrite key x y ∧ x' = g.image ds x ∧
      y' = g.image ds y := by
  have hlt : n < g.slots.size := by
    apply Nat.lt_of_not_le
    intro hge
    obtain ⟨-, -, stamp, -, hnode⟩ := Lowering.decision_eq_rewrite_iff.mp hdecision
    obtain ⟨op, hsafe⟩ := hx.safe_of_new hge hnode rfl
    cases hsafe
  have hmem : n ∉ ds := by
    intro hmem
    simp [Lowering.decision_of_dead (hx.node?_of_mem hmem)] at hdecision
  refine ⟨hmem, ?_⟩
  rw [hx.decision_of_not_mem l hlt hmem] at hdecision
  cases hold : l.decision g n with
  | refuse e => simp [hold, Lowering.Decision.mapOperands] at hdecision
  | alreadySafe => simp [hold, Lowering.Decision.mapOperands] at hdecision
  | notRequired => simp [hold, Lowering.Decision.mapOperands] at hdecision
  | rewrite key' x y =>
      simp only [hold, Lowering.Decision.mapOperands, Lowering.Decision.rewrite.injEq] at hdecision
      obtain ⟨rfl, rfl, rfl⟩ := hdecision
      exact ⟨x, y, rfl, rfl, rfl⟩

end Expansion

end DivGuard
