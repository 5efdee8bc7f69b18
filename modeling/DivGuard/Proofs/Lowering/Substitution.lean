import DivGuard.Lowering.Rewrite
import DivGuard.Proofs.Template.Entries
import DivGuard.Proofs.Template.Placement

/-!
# Lowering one node

A decision to rewrite says all that matters about the node: it is an unchecked division of a width
that the target supports.  Lowering then adds the four nodes of the guarded division and redirects
the uses of the old one.  It fails only if an operand is not live.  Any other decision leaves the
graph and the cache alone.
-/

namespace DivGuard

namespace Template

/-- The nodes of a division of `x` by `y` behind a guard, numbered from `base` on. -/
def guarded (policy : Fallback.Policy) (key : Key) (x y base : NodeId) : List Node :=
  (division key).copies policy [x, y] base

theorem guarded_eq (policy : Fallback.Policy) (key : Key) (x y base : NodeId) :
    guarded policy key x y base =
      [⟨.constant (.ofInt key.width 0), .oneInt key.width 0, []⟩,
        ⟨.equals, .int (.between 32 0 1), [y, base]⟩,
        ⟨.guard (policy .divisionByZero), .void, [base + 1]⟩,
        ⟨.safeDivRem key.op, .anyInt key.width, [x, y, base + 2]⟩] := rfl

@[simp] theorem length_guarded (policy : Fallback.Policy) (key : Key) (x y base : NodeId) :
    (guarded policy key x y base).length = 4 := rfl

theorem bound_division (key : Key) (x y : NodeId) :
    (division key).bound ((({} : Bindings).bind dividendSlot x).bind divisorSlot y) =
      .ok [x, y] := rfl

theorem map_guarded (policy : Fallback.Policy) (key : Key) (x y base : NodeId) {base' : NodeId}
    {f : NodeId → NodeId} (hf : ∀ j < 3, f (base + j) = base' + j) :
    (guarded policy key x y base).map (Node.mapInputs f) =
      guarded policy key (f x) (f y) base' := by
  have h0 : f base = base' := hf 0 (by decide)
  have h1 : f (base + 1) = base' + 1 := hf 1 (by decide)
  have h2 : f (base + 2) = base' + 2 := hf 2 (by decide)
  simp [guarded_eq, Node.mapInputs, h0, h1, h2]

/-- The new nodes use the operands and each other, later ones the earlier ones. -/
theorem inputs_guarded {policy : Fallback.Policy} {key : Key} {x y base : NodeId} {i : Nat}
    {node : Node} (hnode : (guarded policy key x y base)[i]? = some node) {input : NodeId}
    (hinput : input ∈ node.inputs) :
    input = x ∨ input = y ∨ (base ≤ input ∧ input < base + i) := by
  rw [guarded_eq] at hnode
  match i with
  | 0 =>
      obtain rfl := Option.some.inj hnode
      simp at hinput
  | 1 =>
      obtain rfl := Option.some.inj hnode
      simp only [List.mem_cons, List.not_mem_nil, or_false] at hinput
      lia
  | 2 =>
      obtain rfl := Option.some.inj hnode
      simp only [List.mem_cons, List.not_mem_nil, or_false] at hinput
      lia
  | 3 =>
      obtain rfl := Option.some.inj hnode
      simp only [List.mem_cons, List.not_mem_nil, or_false] at hinput
      lia
  | i + 4 => simp at hnode

/-- The last of the new nodes is the only division among them. -/
theorem eq_of_isDivision {policy : Fallback.Policy} {key : Key} {x y base : NodeId} {i : Nat}
    {node : Node} (hnode : (guarded policy key x y base)[i]? = some node)
    (hdivision : node.kind.isDivision = true) :
    i = 3 ∧ node = ⟨.safeDivRem key.op, .anyInt key.width, [x, y, base + 2]⟩ := by
  rw [guarded_eq] at hnode
  match i with
  | 0 | 1 | 2 =>
      obtain rfl := Option.some.inj hnode
      cases hdivision
  | 3 => exact ⟨rfl, (Option.some.inj hnode).symm⟩
  | i + 4 => simp at hnode

end Template

namespace Graph

/-- The graph with a guarded division of `x` by `y` in the place of node `id`. -/
def guard (g : Graph) (policy : Fallback.Policy) (key : Template.Key) (id x y : NodeId) : Graph :=
  (g.append (Template.guarded policy key x y g.slots.size)).redirect id (g.slots.size + 3)

theorem node?_guard {g : Graph} (policy : Fallback.Policy) (key : Template.Key) {id n : NodeId}
    (x y : NodeId) (hn : n ≠ id) :
    (g.guard policy key id x y).node? n =
      ((g.append (Template.guarded policy key x y g.slots.size)).node? n).map
        (Node.mapInputs (redirection id (g.slots.size + 3))) := by
  rw [guard, node?_redirect, if_neg hn, Node.redirect_eq_mapInputs]

theorem addAll_guarded {g : Graph} (policy : Fallback.Policy) (key : Template.Key) {x y : NodeId}
    (hx : g.contains x = true) (hy : g.contains y = true) :
    g.addAll (Template.guarded policy key x y g.slots.size) =
      (.ok (), g.append (Template.guarded policy key x y g.slots.size)) := by
  apply addAll_of_live
  intro i node hnode input hinput
  rcases Template.inputs_guarded hnode hinput with rfl | rfl | hnew
  · exact .inl hx
  · exact .inl hy
  · exact .inr hnew

end Graph

namespace Lowering

variable {l : Lowering} {g : Graph} {id x y : NodeId} {key : Template.Key} {w : Workspace}
  {fetched : Fetched}

theorem fetch_template (key : Template.Key) (fetched : Fetched) (cache : Template.Cache) :
    (fetch key fetched cache).1 = .division key := by
  unfold fetch
  cases hfind : fetched.find? fun entry ↦ entry.key == key with
  | none => exact cache.get_template key
  | some entry =>
      have hkey : entry.key = key := Template.Cache.Entry.key_of_find? hfind
      exact entry.template_eq.trans (by rw [hkey])

/-! ## Decisions -/

theorem decision_eq_rewrite_iff :
    l.decision g id = .rewrite key x y ↔
      l.required = true ∧ l.target.supportsWidth key.width = true ∧
        ∃ stamp : Stamp, stamp.bits?.getD 0 = key.width ∧
          g.node? id = some ⟨.divRem key.op, stamp, [x, y]⟩ := by
  constructor
  · intro h
    unfold decision at h
    split at h
    · cases h
    · next node hnode =>
      split at h
      · cases h
      · next op x' y' hkind hinputs =>
        unfold decideDivision at h
        split at h
        · cases h
        · next hrequired =>
          dsimp only at h
          split at h
          · next hwidth =>
            cases h
            obtain ⟨kind, stamp, inputs⟩ := node
            cases hkind
            cases hinputs
            exact ⟨by simpa using hrequired, hwidth, stamp, rfl, hnode⟩
          · cases h
      · cases h
      · cases h
  · rintro ⟨hrequired, hwidth, stamp, hstamp, hnode⟩
    simp only [decision, hnode, decideDivision, hrequired, hstamp, hwidth, Bool.not_true]
    rfl

theorem decision_eq_alreadySafe_iff :
    l.decision g id = .alreadySafe ↔
      ∃ op stamp inputs, g.node? id = some ⟨.safeDivRem op, stamp, inputs⟩ := by
  constructor
  · intro h
    unfold decision at h
    split at h
    · cases h
    · next node hnode =>
      split at h
      · next op hkind =>
        obtain ⟨kind, stamp, inputs⟩ := node
        cases hkind
        exact ⟨op, stamp, inputs, hnode⟩
      · unfold decideDivision at h
        split at h
        · cases h
        · dsimp only at h
          split at h <;> cases h
      · cases h
      · cases h
  · rintro ⟨op, stamp, inputs, hnode⟩
    simp only [decision, hnode]

theorem decision_ne_notRequired (hrequired : l.required = true) :
    l.decision g id ≠ .notRequired := by
  unfold decision
  cases g.node? id with
  | none => simp
  | some node =>
      obtain ⟨kind, stamp, inputs⟩ := node
      cases kind with
      | divRem op =>
          match inputs with
          | [] | [_] | _ :: _ :: _ :: _ => simp
          | [x, y] =>
              simp only [decideDivision, hrequired, Bool.not_true]
              cases l.target.supportsWidth (stamp.bits?.getD 0) <;> simp
      | _ => simp

theorem decision_of_dead (h : g.node? id = none) :
    l.decision g id = .refuse (.invalidNode id) := by
  simp only [decision, h]

theorem decision_of_length_ne_two {op : DivOp} {stamp : Stamp} {inputs : List NodeId}
    (hnode : g.node? id = some ⟨.divRem op, stamp, inputs⟩) (hlength : inputs.length ≠ 2) :
    l.decision g id = .refuse (.invalidNode id) := by
  match inputs with
  | [] | [_] | _ :: _ :: _ :: _ => simp only [decision, hnode]
  | [_, _] => exact absurd rfl hlength

theorem decision_of_not_isDivision {node : Node} (hnode : g.node? id = some node)
    (hkind : node.kind.isDivision = false) :
    l.decision g id = .refuse (.unsupportedNode id node.kind) := by
  obtain ⟨kind, stamp, inputs⟩ := node
  cases kind with
  | divRem op | safeDivRem op => cases hkind
  | parameter _ | constant _ | equals | guard _ | result => simp only [decision, hnode]

section Division

variable {op : DivOp} {stamp : Stamp} (hnode : g.node? id = some ⟨.divRem op, stamp, [x, y]⟩)

include hnode

theorem decision_of_not_required (hrequired : l.required = false) :
    l.decision g id = .notRequired := by
  simp [decision, hnode, decideDivision, hrequired]

theorem decision_of_unsupported (hrequired : l.required = true)
    (hwidth : l.target.supportsWidth (stamp.bits?.getD 0) = false) :
    l.decision g id = .refuse (.unsupportedWidth op (stamp.bits?.getD 0)) := by
  simp [decision, hnode, decideDivision, hrequired, hwidth]

theorem decision_of_supported (hrequired : l.required = true)
    (hwidth : l.target.supportsWidth (stamp.bits?.getD 0) = true) :
    l.decision g id = .rewrite ⟨op, stamp.bits?.getD 0⟩ x y :=
  decision_eq_rewrite_iff.mpr ⟨hrequired, hwidth, stamp, rfl, hnode⟩

end Division

def Decision.mapOperands (f : NodeId → NodeId) : Decision → Decision
  | .refuse e => .refuse e
  | .alreadySafe => .alreadySafe
  | .notRequired => .notRequired
  | .rewrite key x y => .rewrite key (f x) (f y)

theorem decision_of_mapInputs {h : Graph} {f : NodeId → NodeId}
    (hnode : h.node? id = (g.node? id).map (Node.mapInputs f)) :
    l.decision h id = (l.decision g id).mapOperands f := by
  unfold decision
  rw [hnode]
  cases g.node? id with
  | none => rfl
  | some node =>
      obtain ⟨kind, stamp, inputs⟩ := node
      cases kind with
      | divRem op =>
          match inputs with
          | [] | [_] | _ :: _ :: _ :: _ => rfl
          | [x, y] =>
              simp only [Option.map_some, Node.mapInputs, List.map_cons, List.map_nil,
                decideDivision]
              cases l.required with
              | false => rfl
              | true =>
                  cases l.target.supportsWidth (stamp.bits?.getD 0) <;> rfl
      | _ => rfl

/-! ## What lowering does by decision -/

theorem lowerWith_of_refuse {e : UnitError} (h : l.decision w.graph id = .refuse e) :
    l.lowerWith id fetched w = (.error e, fetched, w) := by
  simp only [lowerWith, h]

theorem lowerWith_of_alreadySafe (h : l.decision w.graph id = .alreadySafe) :
    l.lowerWith id fetched w =
      (.ok .alreadySafe, fetched, { w with session := w.session.recordSkipped }) := by
  simp only [lowerWith, h]

theorem lowerWith_of_notRequired (h : l.decision w.graph id = .notRequired) :
    l.lowerWith id fetched w =
      (.ok .notRequired, fetched, { w with session := w.session.recordSkipped }) := by
  simp only [lowerWith, h]

def rewritten (l : Lowering) (key : Template.Key) (id x y : NodeId) (fetched : Fetched)
    (w : Workspace) : Workspace where
  graph := w.graph.guard l.policy key id x y
  session := (w.session.recordInstantiated 4).recordLowered key.op.name
  cache := (fetch key fetched w.cache).2.2

theorem substitute_of_addAll (hid : w.graph.contains id = true)
    (hadd : w.graph.addAll (Template.guarded l.policy key x y w.graph.slots.size) =
      (.ok (), w.graph.append (Template.guarded l.policy key x y w.graph.slots.size))) :
    l.substitute (.division key) id x y w =
      (.ok (w.graph.slots.size + 3), { w with
        graph := w.graph.guard l.policy key id x y
        session := w.session.recordInstantiated 4 }) := by
  have hold : (w.graph.append (Template.guarded l.policy key x y w.graph.slots.size)).contains id =
      true := by
    rw [Graph.contains, Graph.node?_append_of_lt _ (Graph.lt_size_of_contains hid)]
    exact hid
  have hnew : (w.graph.append (Template.guarded l.policy key x y w.graph.slots.size)).contains
      (w.graph.slots.size + 3) = true := by
    rw [Graph.contains, Graph.node?_append_size_add]
    rfl
  have hinstance := Template.instantiate_of_addAll w.session
    (Template.bound_division key x y) hadd
  simp only [substitute, hinstance, show min (Template.division key).result
    (Template.division key).steps.length = 3 from rfl]
  rw [← Template.guarded, Graph.replace_of_live hold hnew]
  rfl

theorem substitute_of_addAll_error (id : NodeId) {e : UnitError} {h : Graph}
    (hadd : w.graph.addAll (Template.guarded l.policy key x y w.graph.slots.size) =
      (.error e, h)) :
    l.substitute (.division key) id x y w = (.error e, { w with graph := h }) := by
  have hinstance := Template.instantiate_of_addAll_error w.session
    (Template.bound_division key x y) hadd
  simp only [substitute, hinstance]

theorem contains_of_rewrite (h : l.decision g id = .rewrite key x y) : g.contains id = true := by
  obtain ⟨-, -, stamp, -, hnode⟩ := decision_eq_rewrite_iff.mp h
  exact Graph.contains_of_node? hnode

theorem lowerWith_of_addAll (h : l.decision w.graph id = .rewrite key x y)
    (hadd : w.graph.addAll (Template.guarded l.policy key x y w.graph.slots.size) =
      (.ok (), w.graph.append (Template.guarded l.policy key x y w.graph.slots.size))) :
    l.lowerWith id fetched w =
      (.ok (.replaced (w.graph.slots.size + 3)), (fetch key fetched w.cache).2.1,
        l.rewritten key id x y fetched w) := by
  have hsubst := substitute_of_addAll (l := l)
    (w := { w with cache := (fetch key fetched w.cache).2.2 }) (contains_of_rewrite h) hadd
  simp only [lowerWith, h, fetch_template, hsubst]
  rfl

theorem lowerWith_of_addAll_error (h : l.decision w.graph id = .rewrite key x y) {e : UnitError}
    {g' : Graph} (hadd : w.graph.addAll (Template.guarded l.policy key x y w.graph.slots.size) =
      (.error e, g')) :
    l.lowerWith id fetched w = (.error e, (fetch key fetched w.cache).2.1,
      { w with graph := g', cache := (fetch key fetched w.cache).2.2 }) := by
  have hsubst := substitute_of_addAll_error (l := l)
    (w := { w with cache := (fetch key fetched w.cache).2.2 }) id hadd
  simp only [lowerWith, h, fetch_template, hsubst]

theorem lowerWith_of_rewrite (h : l.decision w.graph id = .rewrite key x y)
    (hx : w.graph.contains x = true) (hy : w.graph.contains y = true) :
    l.lowerWith id fetched w =
      (.ok (.replaced (w.graph.slots.size + 3)), (fetch key fetched w.cache).2.1,
        l.rewritten key id x y fetched w) :=
  lowerWith_of_addAll h (Graph.addAll_guarded l.policy key hx hy)

/-- A rewrite that fails leaves copies of the first steps behind, but not of the last one. -/
theorem lowerWith_of_rewrite_cases (fetched : Fetched)
    (h : l.decision w.graph id = .rewrite key x y) :
    l.lowerWith id fetched w =
      (.ok (.replaced (w.graph.slots.size + 3)), (fetch key fetched w.cache).2.1,
        l.rewritten key id x y fetched w) ∨
    ∃ e, (l.lowerWith id fetched w).1 = .error e ∧ ∃ k < 4,
      (l.lowerWith id fetched w).2.2.graph = w.graph.append
        ((Template.guarded l.policy key x y w.graph.slots.size).take k) := by
  rcases Graph.addAll_cases w.graph (Template.guarded l.policy key x y w.graph.slots.size) with
    hadd | ⟨k, node, dead, hnode, -, hadd⟩
  · exact .inl (lowerWith_of_addAll h hadd)
  · have hk : k < 4 := (List.getElem?_eq_some_iff.mp hnode).1
    refine .inr ⟨.invalidNode dead, ?_, k, hk, ?_⟩
    · rw [lowerWith_of_addAll_error h hadd]
    · rw [lowerWith_of_addAll_error h hadd]

end Lowering

end DivGuard
