import DivGuard.Proofs.Editing.Edits
import DivGuard.Proofs.Integer.Division

/-!
# Guarded divisions stay guarded

Lowering adds a zero, a comparison, a guard and a division, in this order.  As long as no edit takes
away one of the first three, the division keeps its guard, however it is lowered and edited around
it.  A divisor that is replaced is replaced in the division and in the comparison at once.
-/

namespace DivGuard

variable {l : Lowering} {g : Graph} {policy : Fallback.Policy} {key : Template.Key}
  {x y base s old id : NodeId}

def Node.Kind.isSafe : Node.Kind → Bool
  | .safeDivRem _ => true
  | .parameter _ | .constant _ | .equals | .guard _ | .divRem _ | .result => false

/-- The nodes right before a guarded division: its zero, its comparison and its guard. -/
def Lowering.checks (s : NodeId) : List NodeId := [s - 3, s - 2, s - 1]

theorem Node.Kind.isDivision_of_isSafe {kind : Node.Kind} (h : kind.isSafe = true) :
    kind.isDivision = true := by
  cases kind with
  | safeDivRem op => rfl
  | parameter _ | constant _ | equals | guard _ | divRem _ | result => cases h

namespace Graph

/-! ## Fragments -/

/-- The nodes from `base` on guard a division by `y`.  The division itself may be deleted. -/
structure Fragment (g : Graph) (policy : Fallback.Policy) (key : Template.Key)
    (x y base : NodeId) : Prop where
  lt_size : base + 3 < g.slots.size
  check : ∀ j < 3, g.node? (base + j) = (Template.guarded policy key x y base)[j]?
  division : ∀ node, g.node? (base + 3) = some node →
    (Template.guarded policy key x y base)[3]? = some node

theorem Fragment.append (h : g.Fragment policy key x y base) (nodes : List Node) :
    (g.append nodes).Fragment policy key x y base := by
  have hlt := h.lt_size
  refine ⟨?_, ?_, ?_⟩
  · rw [size_append]
    lia
  · intro j hj
    rw [node?_append_of_lt nodes (by lia)]
    exact h.check j hj
  · intro node hnode
    rw [node?_append_of_lt nodes hlt] at hnode
    exact h.division node hnode

theorem Fragment.redirect (h : g.Fragment policy key x y base) (hold : ∀ j < 3, base + j ≠ old)
    (new : NodeId) :
    (g.redirect old new).Fragment policy key (redirection old new x) (redirection old new y)
      base := by
  have hfixed : ∀ j < 3, redirection old new (base + j) = base + j :=
    fun j hj ↦ if_neg (hold j hj)
  have hmap := Template.map_guarded policy key x y base hfixed
  refine ⟨?_, ?_, ?_⟩
  · rw [size_redirect]
    exact h.lt_size
  · intro j hj
    rw [node?_redirect, if_neg (hold j hj), h.check j hj, Node.redirect_eq_mapInputs,
      ← List.getElem?_map, hmap]
  · intro node hnode
    rw [node?_redirect] at hnode
    split at hnode
    · cases hnode
    · obtain ⟨before, hbefore, rfl⟩ := Option.map_eq_some_iff.mp hnode
      rw [← hmap, List.getElem?_map, h.division before hbefore]
      rfl

theorem fragment_append_guarded (g : Graph) (policy : Fallback.Policy) (key : Template.Key)
    (x y : NodeId) :
    (g.append (Template.guarded policy key x y g.slots.size)).Fragment policy key x y
      g.slots.size := by
  refine ⟨?_, fun j _ ↦ g.node?_append_size_add _ j, fun node hnode ↦ ?_⟩
  · rw [size_append, Template.length_guarded]
    lia
  · rwa [node?_append_size_add] at hnode

/-- The node is, or was, the division of a fragment. -/
def HasFragment (g : Graph) (s : NodeId) : Prop :=
  ∃ policy key x y base, s = base + 3 ∧ g.Fragment policy key x y base

theorem HasFragment.append (h : g.HasFragment s) (nodes : List Node) :
    (g.append nodes).HasFragment s := by
  obtain ⟨policy, key, x, y, base, hs, hfragment⟩ := h
  exact ⟨policy, key, x, y, base, hs, hfragment.append nodes⟩

theorem HasFragment.redirect (h : g.HasFragment s) (hold : old ∉ Lowering.checks s)
    (new : NodeId) : (g.redirect old new).HasFragment s := by
  obtain ⟨policy, key, x, y, base, rfl, hfragment⟩ := h
  refine ⟨policy, key, _, _, base, rfl, hfragment.redirect ?_ new⟩
  rintro j hj rfl
  apply hold
  simp only [Lowering.checks, List.mem_cons, List.not_mem_nil, or_false]
  lia

/-- An unchecked division is no part of a check. -/
theorem HasFragment.not_mem_checks (h : g.HasFragment s)
    (hdecision : l.decision g id = .rewrite key x y) : id ∉ Lowering.checks s := by
  obtain ⟨policy', key', x', y', base, rfl, hfragment⟩ := h
  obtain ⟨-, -, stamp, -, hnode⟩ := Lowering.decision_eq_rewrite_iff.mp hdecision
  intro hmem
  obtain ⟨j, hj, rfl⟩ : ∃ j < 3, id = base + j := by
    simp only [Lowering.checks, List.mem_cons, List.not_mem_nil, or_false] at hmem
    exact ⟨id - base, by lia, by lia⟩
  rw [hfragment.check j hj] at hnode
  obtain ⟨rfl, -⟩ := Template.eq_of_isDivision hnode rfl
  exact absurd hj (Nat.lt_irrefl 3)

theorem HasFragment.guard (h : g.HasFragment s) (hdecision : l.decision g id = .rewrite key x y) :
    (g.guard policy key id x y).HasFragment s :=
  (h.append _).redirect (h.not_mem_checks hdecision) _

theorem hasFragment_guard (policy : Fallback.Policy)
    (hdecision : l.decision g id = .rewrite key x y) :
    (g.guard policy key id x y).HasFragment (g.slots.size + 3) := by
  have hlt : id < g.slots.size := lt_size_of_contains (Lowering.contains_of_rewrite hdecision)
  exact ⟨policy, key, _, _, g.slots.size, rfl,
    (g.fragment_append_guarded policy key x y).redirect (fun j _ ↦ by lia) _⟩

/-! ## Calls -/

def safeDivisions (g : Graph) : List NodeId :=
  g.nodeIds.filter fun id ↦ (g.node? id).any fun node ↦ node.kind.isSafe

theorem mem_safeDivisions :
    s ∈ g.safeDivisions ↔ ∃ node, g.node? s = some node ∧ node.kind.isSafe = true :=
  mem_filter_nodeIds

theorem HasFragment.call (h : g.HasFragment s) (l : Lowering) (call : Lowering.Call)
    (session : Session) (cache : Template.Cache) :
    (call.after l ⟨g, session, cache⟩).graph.HasFragment s :=
  Lowering.Call.after_induction (p := fun g ↦ g.HasFragment s)
    (fun _ _ _ _ _ _ h ↦ h.append _) (fun _ _ _ _ _ hdecision h ↦ h.guard hdecision) call h

/-- From some number on, all safe divisions are those of fragments. -/
def FragmentsFrom (g : Graph) (start : NodeId) : Prop :=
  ∀ s ∈ g.safeDivisions, start ≤ s → g.HasFragment s

theorem FragmentsFrom.append_take {start : NodeId} (h : g.FragmentsFrom start)
    {k : Nat} (hk : k < 4) :
    (g.append ((Template.guarded policy key x y g.slots.size).take k)).FragmentsFrom start := by
  intro s hs hstart
  obtain ⟨node, hnode, hsafe⟩ := mem_safeDivisions.mp hs
  rw [node?_append] at hnode
  split at hnode
  · exact (h s (mem_safeDivisions.mpr ⟨node, hnode, hsafe⟩) hstart).append _
  · -- The division comes last, so it is not among the first three nodes.
    obtain ⟨hj, hnode⟩ : s - g.slots.size < k ∧
        (Template.guarded policy key x y g.slots.size)[s - g.slots.size]? = some node := by
      simpa [List.getElem?_take] using hnode
    obtain ⟨hlast, -⟩ :=
      Template.eq_of_isDivision hnode (Node.Kind.isDivision_of_isSafe hsafe)
    lia

theorem FragmentsFrom.guard {start : NodeId} (h : g.FragmentsFrom start)
    (hdecision : l.decision g id = .rewrite key x y) :
    (g.guard policy key id x y).FragmentsFrom start := by
  intro s hs hstart
  obtain ⟨node, hnode, hsafe⟩ := mem_safeDivisions.mp hs
  have hne : s ≠ id := by
    rintro rfl
    simp [Graph.guard, node?_redirect] at hnode
  rw [node?_guard policy key x y hne] at hnode
  obtain ⟨before, hbefore, rfl⟩ := Option.map_eq_some_iff.mp hnode
  rw [node?_append] at hbefore
  split at hbefore
  · exact (h s (mem_safeDivisions.mpr ⟨before, hbefore, hsafe⟩) hstart).guard hdecision
  · next hge =>
    obtain ⟨hlast, -⟩ :=
      Template.eq_of_isDivision hbefore (Node.Kind.isDivision_of_isSafe hsafe)
    obtain rfl : s = g.slots.size + 3 := by lia
    exact hasFragment_guard policy hdecision

theorem fragmentsFrom_call (g : Graph) (l : Lowering) (call : Lowering.Call) (session : Session)
    (cache : Template.Cache) :
    (call.after l ⟨g, session, cache⟩).graph.FragmentsFrom g.slots.size := by
  apply Lowering.Call.after_induction (p := fun h ↦ h.FragmentsFrom g.slots.size)
  · intro g' key x y k hk h
    exact h.append_take hk
  · intro g' key id x y hdecision h
    exact h.guard hdecision
  · intro s hs hge
    obtain ⟨node, hnode, -⟩ := mem_safeDivisions.mp hs
    have hlt := lt_size_of_node? hnode
    exact absurd hlt (Nat.not_lt.mpr hge)

end Graph

/-! ## Sequences of edits -/

/-- The guarded divisions that lowering adds in an edit. -/
def Edit.emitted (g : Graph) : Edit → List NodeId
  | .lower l call session cache =>
    (call.after l ⟨g, session, cache⟩).graph.safeDivisions.filter fun s ↦ g.slots.size ≤ s
  | .add _ | .addParameter _ _ | .addConstant _ _ | .addDivRem _ _ _ | .addResult _
  | .replace _ _ | .instantiate _ _ _ _ => []

namespace Graph

/-- Lowering has added the division in one of the first `i` edits. -/
def EmittedBefore (g : Graph) (edits : List Edit) (i : Nat) (s : NodeId) : Prop :=
  ∃ j < i, ∃ e, edits[j]? = some e ∧ s ∈ e.emitted (g.edit (edits.take j))

theorem HasFragment.after (h : g.HasFragment s) (e : Edit)
    (hspared : ∀ old new, e = .replace old new → old ∉ Lowering.checks s) :
    (e.after g).HasFragment s := by
  apply Edit.after_induction (p := fun g ↦ g.HasFragment s) (fun _ node _ h ↦ h.append [node]) e h
  · intro old new he _ _
    exact h.redirect (hspared old new he) new
  · intro l call session cache _
    exact h.call l call session cache

theorem hasFragment_of_mem_emitted {e : Edit} (hs : s ∈ e.emitted g) :
    (e.after g).HasFragment s := by
  cases e with
  | lower l call session cache =>
      obtain ⟨hsafe, hge⟩ := List.mem_filter.mp hs
      exact g.fragmentsFrom_call l call session cache s hsafe (of_decide_eq_true hge)
  | _ => cases hs

theorem hasFragment_of_emittedBefore {edits : List Edit}
    (hspared : ∀ i old new, edits[i]? = some (.replace old new) →
      ∀ s, g.EmittedBefore edits i s → old ∉ Lowering.checks s) (i : Nat)
    (hs : g.EmittedBefore edits i s) : (g.edit (edits.take i)).HasFragment s := by
  induction i with
  | zero =>
      obtain ⟨j, hj, -⟩ := hs
      exact absurd hj (Nat.not_lt_zero j)
  | succ i ih =>
      cases he : edits[i]? with
      | none =>
          have hlength : edits.length ≤ i := List.getElem?_eq_none_iff.mp he
          obtain ⟨j, -, e, hj, hmem⟩ := hs
          have hlt : j < edits.length := (List.getElem?_eq_some_iff.mp hj).1
          rw [edit_take_of_length_le g (Nat.le_succ_of_le hlength)]
          rw [edit_take_of_length_le g hlength] at ih
          exact ih ⟨j, by lia, e, hj, hmem⟩
      | some e =>
          rw [edit_take_succ g he]
          obtain ⟨j, hj, e', he', hmem⟩ := hs
          by_cases hlast : j = i
          · subst hlast
            obtain rfl := Option.some.inj (he.symm.trans he')
            exact hasFragment_of_mem_emitted hmem
          · have hbefore : g.EmittedBefore edits i s := ⟨j, by lia, e', he', hmem⟩
            apply (ih hbefore).after
            rintro old new rfl
            exact hspared i old new he s hbefore

/-- The node divides behind a guard that falls back if its very divisor equals a zero of its
width. -/
def Guarded (g : Graph) (s : NodeId) : Prop :=
  ∃ op width x y guard comparison constant fallback,
    g.node? s = some ⟨.safeDivRem op, .anyInt width, [x, y, guard]⟩ ∧
      g.node? guard = some ⟨.guard fallback, .void, [comparison]⟩ ∧
      fallback.reason = .divisionByZero ∧
      g.node? comparison = some ⟨.equals, .int (.between 32 0 1), [y, constant]⟩ ∧
      g.node? constant = some ⟨.constant (.int width 0), .oneInt width 0, []⟩ ∧
      Lowering.checks s = [constant, comparison, guard]

theorem HasFragment.guarded (h : g.HasFragment s) (hlive : g.contains s = true) : g.Guarded s := by
  obtain ⟨policy, key, x, y, base, rfl, hfragment⟩ := h
  obtain ⟨node, hnode⟩ := contains_iff.mp hlive
  have hdivision : g.node? (base + 3) = (Template.guarded policy key x y base)[3]? :=
    hnode.trans (hfragment.division node hnode).symm
  refine ⟨key.op, key.width, x, y, base + 2, base + 1, base, policy .divisionByZero, hdivision,
    hfragment.check 2 (by decide), ?_, hfragment.check 1 (by decide), ?_, rfl⟩
  · cases (policy .divisionByZero).reason
    rfl
  · rw [← Constant.ofInt_zero]
    exact hfragment.check 0 (by decide)

/-- Whatever is done to a graph, a division that lowering has guarded keeps its guard, if only no
zero, comparison or guard of such a division is replaced. -/
theorem guarded_after_edits (g : Graph) (edits : List Edit)
    (hspared : ∀ i old new, edits[i]? = some (.replace old new) →
      ∀ s, g.EmittedBefore edits i s → old ∉ Lowering.checks s) (i : Nat)
    (hs : g.EmittedBefore edits i s)
    (hlive : (g.edit (edits.take i)).contains s = true) : (g.edit (edits.take i)).Guarded s :=
  (hasFragment_of_emittedBefore hspared i hs).guarded hlive

/-- Both divisions of `x / y / y` are lowered, then `y` gives way to `x`. -/
theorem nested_guarded_after_edits :
    let edits : List Edit :=
      [.lower { target := .aarch64 } .run {} {}, .replace 1 0, .addResult 8]
    let left := Graph.nested.edit (edits.take 3)
    (∀ i old new, edits[i]? = some (.replace old new) →
      ∀ s, Graph.nested.EmittedBefore edits i s → old ∉ Lowering.checks s) ∧
    Graph.nested.EmittedBefore edits 3 12 ∧
      left.node? 12 = some ⟨.safeDivRem .sdiv, .anyInt 32, [0, 0, 11]⟩ ∧ left.Guarded 12 := by
  intro edits left
  have hspared : ∀ i old new, edits[i]? = some (.replace old new) →
      ∀ s, Graph.nested.EmittedBefore edits i s → old ∉ Lowering.checks s := by
    intro i old new hedit s hs
    match i with
    | 0 | 2 => cases hedit
    | i + 3 => cases hedit
    | 1 =>
        cases hedit
        obtain ⟨j, hj, e, he, hmem⟩ := hs
        obtain rfl : j = 0 := by omega
        obtain rfl := Option.some.inj he
        have hall : ∀ s ∈ Edit.emitted Graph.nested (.lower { target := .aarch64 } .run {} {}),
            1 ∉ Lowering.checks s := by decide +kernel
        exact hall s hmem
  have hs : Graph.nested.EmittedBefore edits 3 12 := ⟨0, by decide, _, rfl, by decide +kernel⟩
  have hlive : left.contains 12 = true := by decide +kernel
  exact ⟨hspared, hs, by decide +kernel,
    guarded_after_edits Graph.nested edits hspared 3 hs hlive⟩

end Graph

end DivGuard
