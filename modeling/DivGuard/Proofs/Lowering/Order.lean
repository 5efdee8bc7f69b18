import DivGuard.Proofs.Lowering.ClosedForm
import Mathlib.Logic.Equiv.Defs

/-!
# Lowering in any order

The divisions of a graph can be lowered one by one in any order.  All that depends on the order is
where the four new nodes of each division stand.  Two lowered graphs are therefore the same up to a
renumbering that moves the nodes of each division from their place in the one to their place in the
other and leaves the numbers of the graph before alone.
-/

namespace DivGuard

variable {l : Lowering} {g h h' : Graph} {ds ds' es : List NodeId} {d n : NodeId} {w : Workspace}

/-! ## Renumbering -/

namespace Graph

/-- The nodes of `g` are those of `h` under other numbers. -/
structure Renumbers (f : Equiv.Perm NodeId) (g h : Graph) : Prop where
  name_eq : h.name = g.name
  lt_size_iff : ∀ n, f n < h.slots.size ↔ n < g.slots.size
  node?_apply : ∀ n, h.node? (f n) = (g.node? n).map (Node.mapInputs f)

/-- The same with the numbers of the nodes that `g` has or had left alone. -/
def RenumbersBeyond (g h h' : Graph) : Prop :=
  ∃ f : Equiv.Perm NodeId, (∀ n < g.slots.size, f n = n) ∧ Renumbers f h h'

/-- Where a node of a graph lowered along `ds` stands once the graph is lowered along `ds'`. -/
def relocate (g : Graph) (ds ds' : List NodeId) (n : NodeId) : NodeId :=
  if n < g.slots.size then n
  else
    match ds[(n - g.slots.size) / 4]? with
    | none => n
    | some d => g.slots.size + 4 * ds'.idxOf d + (n - g.slots.size) % 4

theorem relocate_of_lt (hn : n < g.slots.size) : g.relocate ds ds' n = n := if_pos hn

theorem relocate_new {i j : Nat} (hi : ds[i]? = some d) (hj : j < 4) :
    g.relocate ds ds' (g.slots.size + 4 * i + j) = g.slots.size + 4 * ds'.idxOf d + j := by
  have hdiv : (g.slots.size + 4 * i + j - g.slots.size) / 4 = i := by lia
  have hmod : (g.slots.size + 4 * i + j - g.slots.size) % 4 = j := by lia
  rw [relocate, if_neg (by lia), hdiv, hmod, hi]

theorem relocate_of_size_le (hn : g.slots.size + 4 * ds.length ≤ n) :
    g.relocate ds ds' n = n := by
  have hout : ds[(n - g.slots.size) / 4]? = none := List.getElem?_eq_none (by lia)
  rw [relocate, if_neg (by lia), hout]

/-- A number is that of an old node, of a new one or of none. -/
theorem lowered_cases (g : Graph) (ds : List NodeId) (n : NodeId) :
    n < g.slots.size ∨
      (∃ (i : Nat) (d : NodeId) (j : Nat), ds[i]? = some d ∧ j < 4 ∧
        n = g.slots.size + 4 * i + j) ∨
      g.slots.size + 4 * ds.length ≤ n := by
  rcases Nat.lt_or_ge n g.slots.size with hold | hnew
  · exact .inl hold
  rcases Nat.lt_or_ge n (g.slots.size + 4 * ds.length) with hin | hout
  · have hi : (n - g.slots.size) / 4 < ds.length := by lia
    exact .inr (.inl ⟨_, _, (n - g.slots.size) % 4, List.getElem?_eq_getElem hi,
      Nat.mod_lt _ (by decide), by lia⟩)
  · exact .inr (.inr hout)

theorem relocate_relocate (hnodup : ds.Nodup) (hperm : ds.Perm ds') (n : NodeId) :
    g.relocate ds' ds (g.relocate ds ds' n) = n := by
  rcases g.lowered_cases ds n with hold | ⟨i, d, j, hi, hj, rfl⟩ | hout
  · rw [relocate_of_lt hold, relocate_of_lt hold]
  · have hd : d ∈ ds' := hperm.mem_iff.mp (List.mem_of_getElem? hi)
    have hback : ds'[ds'.idxOf d]? = some d := List.getElem?_idxOf hd
    have hidx : ds.idxOf d = i := by
      obtain ⟨hlt, rfl⟩ := List.getElem?_eq_some_iff.mp hi
      exact hnodup.idxOf_getElem i hlt
    rw [relocate_new hi hj, relocate_new hback hj, hidx]
  · have hout' : g.slots.size + 4 * ds'.length ≤ n := hperm.length_eq ▸ hout
    rw [relocate_of_size_le hout, relocate_of_size_le hout']

/-- The renumbering that moves new nodes from one order to another. -/
def relocation (g : Graph) (hnodup : ds.Nodup) (hperm : ds.Perm ds') : Equiv.Perm NodeId where
  toFun := g.relocate ds ds'
  invFun := g.relocate ds' ds
  left_inv := relocate_relocate hnodup hperm
  right_inv := relocate_relocate (hperm.nodup_iff.mp hnodup) hperm.symm

theorem relocate_image (hnodup : ds.Nodup) (hperm : ds.Perm ds') (hn : n < g.slots.size) :
    g.relocate ds ds' (g.image ds n) = g.image ds' n := by
  by_cases hmem : n ∈ ds
  · obtain ⟨i, hi⟩ := List.getElem?_of_mem hmem
    rw [image_of_getElem? hnodup hi, relocate_new hi (by decide), image,
      if_pos (hperm.mem_iff.mp hmem)]
  · have hmem' : n ∉ ds' := fun hmem' ↦ hmem (hperm.mem_iff.mpr hmem')
    rw [image_of_not_mem hmem, image_of_not_mem hmem', relocate_of_lt hn]

theorem relocate_lt_iff (hperm : ds.Perm ds') (n : NodeId) :
    g.relocate ds ds' n < g.slots.size + 4 * ds'.length ↔
      n < g.slots.size + 4 * ds.length := by
  have hlength : ds.length = ds'.length := hperm.length_eq
  rcases g.lowered_cases ds n with hold | ⟨i, d, j, hi, hj, rfl⟩ | hout
  · rw [relocate_of_lt hold, hlength]
  · have hlt : i < ds.length := (List.getElem?_eq_some_iff.mp hi).1
    have hidx : ds'.idxOf d < ds'.length :=
      List.idxOf_lt_length_of_mem (hperm.mem_iff.mp (List.mem_of_getElem? hi))
    rw [relocate_new hi hj]
    lia
  · rw [relocate_of_size_le hout, hlength]

/-- In a closed graph all inputs are old nodes, so what is true of their images carries over. -/
theorem Closed.mapInputs_image (hclosed : g.Closed) {node : Node} (hnode : g.node? n = some node)
    {f : NodeId → NodeId} (hf : ∀ m < g.slots.size, f (g.image ds m) = g.image ds' m) :
    (node.mapInputs (g.image ds)).mapInputs f = node.mapInputs (g.image ds') := by
  rw [Node.mapInputs_mapInputs]
  refine congrArg (Node.mk node.kind node.stamp) (List.map_congr_left fun input hinput ↦ ?_)
  exact hf input (lt_size_of_contains (hclosed n input ⟨node, hnode, hinput⟩))

end Graph

namespace Expansion

theorem node?_relocate (hx : Expansion l g ds h) (hx' : Expansion l g ds' h')
    (hclosed : g.Closed) (hperm : ds.Perm ds') (n : NodeId) :
    h'.node? (g.relocate ds ds' n) =
      (h.node? n).map (Node.mapInputs (g.relocate ds ds')) := by
  have himage : ∀ m < g.slots.size, g.relocate ds ds' (g.image ds m) = g.image ds' m :=
    fun m hm ↦ Graph.relocate_image hx.nodup hperm hm
  rcases g.lowered_cases ds n with hold | ⟨i, d, j, hi, hj, rfl⟩ | hout
  · rw [Graph.relocate_of_lt hold, hx.kept n hold, hx'.kept n hold]
    by_cases hmem : n ∈ ds
    · rw [if_pos hmem, if_pos (hperm.mem_iff.mp hmem)]
      rfl
    · rw [if_neg hmem, if_neg fun hmem' ↦ hmem (hperm.mem_iff.mpr hmem')]
      cases hnode : g.node? n with
      | none => rfl
      | some node => simp [hclosed.mapInputs_image hnode himage]
  · obtain ⟨key, x, y, hdecision⟩ := hx.decided d (List.mem_of_getElem? hi)
    obtain ⟨hux, huy⟩ := Lowering.uses_of_rewrite hdecision
    have hd : ds'[ds'.idxOf d]? = some d :=
      List.getElem?_idxOf (hperm.mem_iff.mp (List.mem_of_getElem? hi))
    have hplace : ∀ j < 4, g.relocate ds ds' (g.slots.size + 4 * i + j) =
        g.slots.size + 4 * ds'.idxOf d + j := fun j hj ↦ Graph.relocate_new hi hj
    rw [hplace j hj, hx.added i d key x y hi hdecision j hj,
      hx'.added _ d key x y hd hdecision j hj, ← List.getElem?_map,
      Template.map_guarded _ _ _ _ _ fun j hj ↦ hplace j (by lia),
      himage x (Graph.lt_size_of_contains (hclosed _ _ hux)),
      himage y (Graph.lt_size_of_contains (hclosed _ _ huy))]
  · have hlength : ds.length = ds'.length := hperm.length_eq
    have hdead : h.node? n = none :=
      Graph.node?_eq_none_of_size_le (by rw [hx.size_eq]; exact hout)
    have hdead' : h'.node? n = none :=
      Graph.node?_eq_none_of_size_le (by rw [hx'.size_eq, ← hlength]; exact hout)
    rw [Graph.relocate_of_size_le hout, hdead, hdead']
    rfl

theorem renumbers (hx : Expansion l g ds h) (hx' : Expansion l g ds' h') (hclosed : g.Closed)
    (hperm : ds.Perm ds') : Graph.Renumbers (g.relocation hx.nodup hperm) h h' where
  name_eq := hx'.name_eq.trans hx.name_eq.symm
  lt_size_iff n := by
    rw [hx.size_eq, hx'.size_eq]
    exact Graph.relocate_lt_iff hperm n
  node?_apply := hx.node?_relocate hx' hclosed hperm

theorem renumbersBeyond (hx : Expansion l g ds h) (hx' : Expansion l g ds' h')
    (hclosed : g.Closed) (hperm : ds.Perm ds') : g.RenumbersBeyond h h' :=
  ⟨g.relocation hx.nodup hperm, fun _ hn ↦ Graph.relocate_of_lt hn,
    hx.renumbers hx' hclosed hperm⟩

end Expansion

/-! ## Lowering node by node -/

namespace Lowering

/-- Lowers nodes one after the other, each by a call of its own, and collects the results. -/
def lowerEach (l : Lowering) :
    List NodeId → Workspace → List (Except UnitError Lowered) × Workspace
  | [], w => ([], w)
  | id :: ids, w =>
    let (result, w) := l.lower id w
    let (results, w) := l.lowerEach ids w
    (result :: results, w)

/-- All unchecked divisions have two operands and a width that the target supports. -/
def Supports (l : Lowering) (g : Graph) : Prop :=
  ∀ d ∈ g.divisions, ∀ node ∈ g.node? d, node.inputs.length = 2 ∧
    l.target.supportsWidth (node.stamp.bits?.getD 0) = true

instance (l : Lowering) (g : Graph) : Decidable (l.Supports g) :=
  inferInstanceAs (Decidable (∀ d ∈ g.divisions, ∀ node ∈ g.node? d, node.inputs.length = 2 ∧
    l.target.supportsWidth (node.stamp.bits?.getD 0) = true))

theorem Supports.rewrites (hsupports : l.Supports g) (hrequired : l.required = true)
    (hd : d ∈ g.divisions) : l.rewrites g d = true := by
  obtain ⟨⟨kind, stamp, inputs⟩, hnode, hunchecked⟩ := Graph.mem_divisions.mp hd
  obtain ⟨hinputs, hwidth⟩ := hsupports d hd _ hnode
  obtain ⟨x, y, rfl⟩ := List.length_eq_two.mp hinputs
  cases kind with
  | divRem op =>
      exact rewrites_iff.mpr ⟨⟨op, _⟩, x, y,
        decision_eq_rewrite_iff.mpr ⟨hrequired, hwidth, stamp, rfl, hnode⟩⟩
  | _ => cases hunchecked

end Lowering

/-- Each division in the list is lowered, whatever was lowered before, and its result says where it
went. -/
theorem Expansion.lowerEach (hx : Expansion l g es w.graph) (hclosed : g.Closed)
    (hnodup : (es ++ ds).Nodup) (hrewrites : ∀ d ∈ ds, l.rewrites g d = true) :
    (l.lowerEach ds w).1 = ds.map (fun d ↦ .ok (.replaced (g.image (es ++ ds) d))) ∧
      Expansion l g (es ++ ds) (l.lowerEach ds w).2.graph := by
  induction ds generalizing es w with
  | nil => exact ⟨rfl, by simpa [Lowering.lowerEach] using hx⟩
  | cons d ds ih =>
      have hd : d ∉ es := fun hd ↦ (List.disjoint_of_nodup_append hnodup) hd List.mem_cons_self
      rw [List.append_cons] at hnodup ⊢
      obtain ⟨key, x, y, hdecision⟩ :=
        Lowering.rewrites_iff.mp (hrewrites d List.mem_cons_self)
      rcases hx.lowerWith_of_rewrite hd hdecision [] with ⟨fetched', w', hstep, hx'⟩ | ⟨hopen, -⟩
      · have hlower : l.lower d w =
            (.ok (.replaced (g.slots.size + 4 * es.length + 3)), w') := by
          simp only [Lowering.lower, hstep]
        have himage : g.image (es ++ [d] ++ ds) d = g.slots.size + 4 * es.length + 3 :=
          Graph.image_of_getElem? hnodup (by simp)
        obtain ⟨hresults, hfinal⟩ := ih hx' hnodup
          fun next hnext ↦ hrewrites next (List.mem_cons_of_mem d hnext)
        simp only [Lowering.lowerEach, hlower, hresults, List.map_cons, himage]
        exact ⟨trivial, hfinal⟩
      · exact absurd hclosed hopen

namespace Lowering

theorem Supports.lowerEach (hsupports : l.Supports w.graph) (hclosed : w.graph.Closed)
    (hrequired : l.required = true) (hds : ds.Perm w.graph.divisions) :
    (l.lowerEach ds w).1 = ds.map (fun d ↦ .ok (.replaced (w.graph.image ds d))) ∧
      Expansion l w.graph ds (l.lowerEach ds w).2.graph := by
  have hnodup : ds.Nodup :=
    hds.nodup_iff.mpr (w.graph.divisions_pairwise.imp Nat.ne_of_lt)
  simpa using (Expansion.refl l w.graph).lowerEach hclosed (by simpa using hnodup)
    fun d hd ↦ hsupports.rewrites hrequired (hds.mem_iff.mp hd)

theorem Supports.passes (hsupports : l.Supports g) (hrequired : l.required = true)
    (hn : n ∈ worklist g) : l.Skips g n ∨ l.rewrites g n = true := by
  obtain ⟨⟨kind, stamp, inputs⟩, hnode, hdivision⟩ := mem_worklist.mp hn
  cases kind with
  | divRem op =>
      exact .inr (hsupports.rewrites hrequired (Graph.mem_divisions.mpr ⟨_, hnode, rfl⟩))
  | safeDivRem op =>
      exact .inl (.inl (decision_eq_alreadySafe_iff.mpr ⟨op, stamp, inputs, hnode⟩))
  | _ => cases hdivision

theorem Supports.run (hsupports : l.Supports w.graph) (hclosed : w.graph.Closed)
    (hrequired : l.required = true) :
    (l.run w).1 = .ok w.graph.divisions.length ∧
      Expansion l w.graph w.graph.divisions (l.run w).2.graph := by
  have hprogress := l.run_progress w (.inl hclosed)
  have hok : ∃ k, (l.run w).1 = .ok k := by
    obtain ⟨before, rest, hsplit, -, -, hend⟩ := hprogress
    cases rest with
    | nil => exact ⟨_, hend⟩
    | cons bad rest =>
        obtain ⟨e, hrefuse, -⟩ := hend
        rcases hsupports.passes hrequired (n := bad) (by simp [hsplit]) with hskips | hrewrites
        · rcases hskips with hskips | hskips <;> cases hrefuse.symm.trans hskips
        · obtain ⟨key, x, y, hrewrite⟩ := rewrites_iff.mp hrewrites
          cases hrefuse.symm.trans hrewrite
  obtain ⟨k, hk⟩ := hok
  obtain ⟨hpassed, hfinal, hcount⟩ := hprogress.of_ok hk
  rw [filter_rewrites_worklist hrequired hpassed] at hfinal hcount
  exact ⟨hcount ▸ hk, hfinal⟩

/-- Lowering the divisions one by one succeeds in every order, and so does a run.  All graphs that
come of it are the same up to the numbers of the new nodes. -/
theorem lower_in_any_order (hclosed : w.graph.Closed) (hrequired : l.required = true)
    (hsupports : l.Supports w.graph) (hds : ds.Perm w.graph.divisions)
    (hds' : ds'.Perm w.graph.divisions) :
    (l.lowerEach ds w).1 = ds.map (fun d ↦ .ok (.replaced (w.graph.image ds d))) ∧
      (l.run w).1 = .ok w.graph.divisions.length ∧
      w.graph.RenumbersBeyond (l.lowerEach ds w).2.graph (l.lowerEach ds' w).2.graph ∧
      w.graph.RenumbersBeyond (l.lowerEach ds w).2.graph (l.run w).2.graph := by
  obtain ⟨hresults, hx⟩ := hsupports.lowerEach hclosed hrequired hds
  obtain ⟨-, hx'⟩ := hsupports.lowerEach hclosed hrequired hds'
  obtain ⟨hrun, hxrun⟩ := hsupports.run hclosed hrequired
  exact ⟨hresults, hrun, hx.renumbersBeyond hx' hclosed (hds.trans hds'.symm),
    hx.renumbersBeyond hxrun hclosed hds⟩

theorem lower_nested_in_any_order :
    let l : Lowering := { target := .aarch64 }
    let w : Workspace := { graph := .nested }
    (Graph.nested.Closed ∧ l.required = true ∧ l.Supports .nested ∧
      [3, 2].Perm Graph.nested.divisions ∧ [2, 3].Perm Graph.nested.divisions) ∧
    (l.lowerEach [3, 2] w).2.graph ≠ (l.lowerEach [2, 3] w).2.graph ∧
      (l.lowerEach [3, 2] w).1 = [.ok (.replaced 8), .ok (.replaced 12)] ∧
      Graph.nested.RenumbersBeyond (l.lowerEach [3, 2] w).2.graph
        (l.lowerEach [2, 3] w).2.graph := by
  intro l w
  have hclosed : Graph.nested.Closed := by decide
  have hsupports : l.Supports .nested := by decide
  have hinner : [3, 2].Perm Graph.nested.divisions := by decide
  have houter : [2, 3].Perm Graph.nested.divisions := by decide
  obtain ⟨hresults, -, hsame, -⟩ := lower_in_any_order (l := l) (w := w) hclosed rfl hsupports
    hinner houter
  exact ⟨⟨hclosed, rfl, hsupports, hinner, houter⟩, by decide +kernel, hresults, hsame⟩

end Lowering

end DivGuard
