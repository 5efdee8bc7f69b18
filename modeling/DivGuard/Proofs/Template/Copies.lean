import DivGuard.Proofs.Graph.Built
import DivGuard.Proofs.Template.Placement
import DivGuard.Proofs.Template.Slots
import DivGuard.Template.Division
import Mathlib.Data.List.Forall2

/-!
# Copies of templates

`Copied` says what an instantiation adds to a graph in terms of the template and of what its slots
are bound to: consecutive nodes, one for each step, with the inputs that the step names.  A complete
instantiation copies all steps.  One that is refused for want of a binding copies none, and one that
meets an input that is not live has copied the steps before.
-/

namespace DivGuard.Template

variable {t : Template} {policy : Fallback.Policy} {bindings : Bindings} {g h : Graph}
  {session : Session} {nodeOf : String → Option NodeId} {base : NodeId}

instance (t : Template) (position : Nat) :
    (input : Input) → Decidable (t.InputInRange position input)
  | .slot index => inferInstanceAs (Decidable (index < t.slots.length))
  | .step index => inferInstanceAs (Decidable (index < position))

theorem wellFormed_iff :
    t.WellFormed ↔ (∀ position : Fin t.steps.length, ∀ input ∈ t.steps[position].inputs,
      t.InputInRange position input) ∧ t.result < t.steps.length := by
  constructor
  · rintro ⟨hinputs, hresult⟩
    exact ⟨fun position ↦ hinputs position _ (List.getElem?_eq_getElem position.isLt), hresult⟩
  · rintro ⟨hinputs, hresult⟩
    refine ⟨fun position step hstep ↦ ?_, hresult⟩
    obtain ⟨hlt, rfl⟩ := List.getElem?_eq_some_iff.mp hstep
    exact hinputs ⟨position, hlt⟩

instance (t : Template) : Decidable t.WellFormed := decidable_of_iff _ wellFormed_iff.symm

/-- The node that an input of a step stands for, with the copies numbered from `base` on. -/
inductive Input.StandsFor (t : Template) (nodeOf : String → Option NodeId) (base : NodeId) :
    Input → NodeId → Prop
  | slot {index : Nat} {slot : String} {node : NodeId} :
      t.slots[index]? = some slot → nodeOf slot = some node →
        StandsFor t nodeOf base (.slot index) node
  | step (index : Nat) : StandsFor t nodeOf base (.step index) (base + index)

/-- The kind of node that an operation becomes.  A guard carries the answer to its reason. -/
inductive Op.Becomes (policy : Fallback.Policy) : Op → Node.Kind → Prop
  | constant (value : Constant) : Becomes policy (.constant value) (.constant value)
  | equals : Becomes policy .equals .equals
  | fallback (reason : Fallback.Reason) : Becomes policy (.fallback reason) (.guard (policy reason))
  | safeDivRem (op : DivOp) : Becomes policy (.safeDivRem op) (.safeDivRem op)

/-- The node has the kind and the stamp of the step and the inputs that it names. -/
structure Step.CopiedTo (t : Template) (policy : Fallback.Policy) (nodeOf : String → Option NodeId)
    (base : NodeId) (step : Step) (node : Node) : Prop where
  kind : step.op.Becomes policy node.kind
  stamp_eq : node.stamp = step.stamp
  inputs : List.Forall₂ (Input.StandsFor t nodeOf base) step.inputs node.inputs

/-- The second graph is the first with copies of the first `count` steps behind it. -/
structure Copied (t : Template) (policy : Fallback.Policy) (nodeOf : String → Option NodeId)
    (count : Nat) (g h : Graph) : Prop where
  name_eq : h.name = g.name
  size_eq : h.slots.size = g.slots.size + count
  kept : ∀ id < g.slots.size, h.node? id = g.node? id
  copied : ∀ j < count, ∃ step node, t.steps[j]? = some step ∧
    h.node? (g.slots.size + j) = some node ∧ step.CopiedTo t policy nodeOf g.slots.size node

/-- All slots are bound to live nodes. -/
def SlotsLive (t : Template) (nodeOf : String → Option NodeId) (g : Graph) : Prop :=
  ∀ slot ∈ t.slots, ∃ node, nodeOf slot = some node ∧ g.contains node = true

/-- All steps are copied, and the session has recorded it. -/
structure Complete (t : Template) (policy : Fallback.Policy) (nodeOf : String → Option NodeId)
    (g : Graph) (session : Session) (outcome : Except UnitError NodeId × Graph × Session) :
    Prop where
  result_eq : outcome.1 = .ok (g.slots.size + t.result)
  copied : t.Copied policy nodeOf t.steps.length g outcome.2.1
  session_eq : outcome.2.2 = { session with
    statistics := { session.statistics with
      instantiated := session.statistics.instantiated + 1
      created := session.statistics.created + t.steps.length } }

/-- The numbers that the copies of the steps get in a graph. -/
def copyIds (t : Template) (g : Graph) : List NodeId := List.range' g.slots.size t.steps.length

/-! ## Copying steps -/

theorem Op.becomes_kind (policy : Fallback.Policy) (op : Op) :
    op.Becomes policy (op.kind policy) := by
  cases op with
  | constant value => exact .constant value
  | equals => exact .equals
  | fallback reason => exact .fallback reason
  | safeDivRem op => exact .safeDivRem op

section Copy

variable (hbound : ∀ slot ∈ t.slots, nodeOf slot ≠ none)

include hbound

theorem standsFor_source {position : Nat} {input : Input} (next : NodeId)
    (hinput : t.InputInRange position input) :
    input.StandsFor t nodeOf base
      (input.source (t.slots.filterMap nodeOf) (List.range' base position) next) := by
  cases input with
  | step index =>
      have hsource : Input.source (t.slots.filterMap nodeOf) (List.range' base position) next
          (.step index) = base + index := by
        rw [Input.source, List.getD_eq_getElem?_getD, List.getElem?_range' hinput, Nat.one_mul]
        rfl
      rw [hsource]
      exact .step index
  | slot index =>
      have hslot : t.slots[index]? = some t.slots[index] := List.getElem?_eq_getElem hinput
      obtain ⟨node, hnode⟩ := Option.ne_none_iff_exists'.mp (hbound _ (List.mem_of_getElem? hslot))
      have hsource : Input.source (t.slots.filterMap nodeOf) (List.range' base position) next
          (.slot index) = node := by
        rw [Input.source, List.getD_eq_getElem?_getD, getElem?_filterMap hbound, hslot]
        simp [hnode]
      rw [hsource]
      exact .slot hslot hnode

theorem copiedTo_copy {position : Nat} {step : Step} (next : NodeId)
    (hstep : ∀ input ∈ step.inputs, t.InputInRange position input) :
    step.CopiedTo t policy nodeOf base
      (step.copy policy (t.slots.filterMap nodeOf) (List.range' base position) next) where
  kind := step.op.becomes_kind policy
  stamp_eq := rfl
  inputs := by
    rw [Step.copy, List.forall₂_map_right_iff, List.forall₂_same]
    exact fun input hinput ↦ standsFor_source hbound next (hstep input hinput)

theorem copied_append (policy : Fallback.Policy)
    (hinputs : ∀ position step, t.steps[position]? = some step →
      ∀ input ∈ step.inputs, t.InputInRange position input)
    {count : Nat} (hcount : count ≤ t.steps.length) (g : Graph) :
    t.Copied policy nodeOf count g
      (g.append ((t.copies policy (t.slots.filterMap nodeOf) g.slots.size).take count)) where
  name_eq := g.name_append _
  size_eq := by simp [hcount]
  kept id hid := Graph.node?_append_of_lt _ hid
  copied j hj := by
    have hlt : j < t.steps.length := Nat.lt_of_lt_of_le hj hcount
    have hstep : t.steps[j]? = some t.steps[j] := List.getElem?_eq_getElem hlt
    refine ⟨t.steps[j], _, hstep, ?_, copiedTo_copy hbound (g.slots.size + j) (hinputs j _ hstep)⟩
    rw [Graph.node?_append_size_add, List.getElem?_take_of_lt hj, getElem?_copies, hstep]
    rfl

end Copy

theorem Copied.eq_iff {count : Nat} (hcopied : t.Copied policy nodeOf count g h) :
    h = g ↔ count = 0 := by
  constructor
  · rintro rfl
    have hsize := hcopied.size_eq
    omega
  · rintro rfl
    exact Graph.eq_of_node? hcopied.name_eq hcopied.size_eq fun id hid ↦
      hcopied.kept id (by simpa [hcopied.size_eq] using hid)

theorem Copied.disjoint_copyIds (hcopied : t.Copied policy nodeOf t.steps.length g h) :
    (t.copyIds g).Disjoint (t.copyIds h) := by
  intro id hg hh
  rw [copyIds, List.mem_range'_1] at hg hh
  rw [hcopied.size_eq] at hh
  exact absurd hh.1 (Nat.not_le.mpr hg.2)

/-! ## Instantiation -/

theorem addAll_copies (ht : t.WellFormed) (hlive : t.SlotsLive nodeOf g) :
    g.addAll (t.copies policy (t.slots.filterMap nodeOf) g.slots.size) =
      (.ok (), g.append (t.copies policy (t.slots.filterMap nodeOf) g.slots.size)) := by
  have hbound : ∀ slot ∈ t.slots, nodeOf slot ≠ none := by
    intro slot hslot
    obtain ⟨node, hnode, -⟩ := hlive slot hslot
    simp [hnode]
  apply Graph.addAll_of_live
  intro i node hnode input hinput
  rw [getElem?_copies] at hnode
  obtain ⟨step, hstep, rfl⟩ := Option.map_eq_some_iff.mp hnode
  obtain ⟨source, hsource, rfl⟩ := List.mem_map.mp hinput
  have hrange := ht.inputs_in_range i step hstep source hsource
  have hstands : source.StandsFor t nodeOf g.slots.size
      (source.source (t.slots.filterMap nodeOf) (List.range' g.slots.size i) (g.slots.size + i)) :=
    standsFor_source hbound _ hrange
  generalize source.source _ _ _ = node at hstands ⊢
  cases hstands with
  | slot hslot hnode =>
      obtain ⟨node, hnode', hlive⟩ := hlive _ (List.mem_of_getElem? hslot)
      obtain rfl := Option.some.inj (hnode.symm.trans hnode')
      exact .inl hlive
  | step index => exact .inr ⟨Nat.le_add_right _ _, Nat.add_lt_add_left hrange _⟩

theorem complete_instantiate (ht : t.WellFormed) (hlive : t.SlotsLive bindings.get? g) :
    t.Complete policy bindings.get? g session (t.instantiate policy bindings g session) := by
  rcases t.bound_cases bindings with ⟨slot, ⟨before, after, hslots, hslot, -⟩, -⟩ | ⟨hall, hbound⟩
  · obtain ⟨node, hnode, -⟩ := hlive slot (by simp [hslots])
    cases hslot.symm.trans hnode
  · have hcopied := copied_append hall policy ht.inputs_in_range (Nat.le_refl _) g
    rw [List.take_of_length_le (by simp)] at hcopied
    rw [instantiate_of_addAll _ hbound (addAll_copies ht hlive),
      Nat.min_eq_left (Nat.le_of_lt ht.result_lt)]
    exact ⟨rfl, hcopied, rfl⟩

/-- An instantiation with an unbound slot reports the first one and changes nothing.  With all slots
bound to live nodes it gives the number of the copy of the result, and what is instantiated after it
shares no copies with it. -/
theorem instantiate_copies (ht : t.WellFormed) (policy : Fallback.Policy)
    (entries : List (String × NodeId)) (g : Graph) (session : Session) :
    let first := t.instantiate policy (.ofList entries) g session
    ((∃ slot ∈ t.slots, Bindings.lastBound? entries slot = none) →
      ∃ slot, IsFirst (fun slot ↦ Bindings.lastBound? entries slot = none) t.slots slot ∧
        first = (.error (.templateBinding t.key slot), g, session)) ∧
    (t.SlotsLive (Bindings.lastBound? entries) g →
      t.Complete policy (Bindings.lastBound? entries) g session first ∧
      ∀ policy' entries' session', t.SlotsLive (Bindings.lastBound? entries') first.2.1 →
        let second := t.instantiate policy' (.ofList entries') first.2.1 session'
        t.Complete policy' (Bindings.lastBound? entries') first.2.1 session' second ∧
          (t.copyIds g).Disjoint (t.copyIds first.2.1)) := by
  intro first
  refine ⟨?_, fun hlive ↦ ?_⟩
  · rintro ⟨slot, hslot, hnone⟩
    rw [← Bindings.get?_ofList] at hnone ⊢
    rcases t.bound_cases (.ofList entries) with ⟨unbound, hfirst, hbound⟩ | ⟨hall, -⟩
    · exact ⟨unbound, hfirst, instantiate_of_unbound hbound⟩
    · exact absurd hnone (hall slot hslot)
  · rw [← Bindings.get?_ofList] at hlive ⊢
    have hcomplete : t.Complete policy (Bindings.ofList entries).get? g session first :=
      complete_instantiate ht hlive
    refine ⟨hcomplete, fun policy' entries' session' hlive' ↦ ?_⟩
    rw [← Bindings.get?_ofList] at hlive' ⊢
    exact ⟨complete_instantiate ht hlive', hcomplete.copied.disjoint_copyIds⟩

/-- A template whose first step and whose second slot are used twice, and whose result is not the
last step. -/
def shared : Template where
  key := ⟨.udiv, 8⟩
  slots := ["x", "y"]
  steps := [⟨.equals, .int (.between 32 0 1), [.slot 1, .slot 1]⟩,
    ⟨.safeDivRem .udiv, .anyInt 8, [.slot 0, .slot 1, .step 0]⟩,
    ⟨.fallback .divisionByZero, .void, [.step 0]⟩]
  result := 1

/-- One slot is bound twice, and the same is instantiated again. -/
theorem instantiate_copies_shared :
    let nodeOf := Bindings.lastBound? [("x", 7), ("y", 1), ("x", 0)]
    let bindings := Bindings.ofList [("x", 7), ("y", 1), ("x", 0)]
    let first := shared.instantiate .keepCode bindings .octets {}
    let second := shared.instantiate .keepCode bindings first.2.1 first.2.2
    (shared.WellFormed ∧ shared.SlotsLive nodeOf .octets ∧ shared.SlotsLive nodeOf first.2.1) ∧
      shared.Complete .keepCode nodeOf .octets {} first ∧
      shared.Complete .keepCode nodeOf first.2.1 first.2.2 second ∧
      (shared.copyIds .octets).Disjoint (shared.copyIds first.2.1) := by
  intro nodeOf bindings first second
  have hwell : shared.WellFormed := by decide
  have hlive : shared.SlotsLive nodeOf .octets := by
    intro slot hslot
    rcases List.mem_pair.mp hslot with rfl | rfl
    · exact ⟨0, by decide, by decide⟩
    · exact ⟨1, by decide, by decide⟩
  have hlive' : shared.SlotsLive nodeOf first.2.1 := by
    intro slot hslot
    rcases List.mem_pair.mp hslot with rfl | rfl
    · exact ⟨0, by decide, by decide +kernel⟩
    · exact ⟨1, by decide, by decide +kernel⟩
  obtain ⟨hfirst, hagain⟩ := (instantiate_copies hwell .keepCode _ .octets {}).2 hlive
  obtain ⟨hsecond, hdisjoint⟩ := hagain .keepCode _ first.2.2 hlive'
  exact ⟨⟨hwell, hlive, hlive'⟩, hfirst, hsecond, hdisjoint⟩

/-! ## Refusal -/

/-- Copying stopped at the step at a position, as its copy would have an input that is not live by
then; the first of these is `dead`. -/
structure StoppedAt (t : Template) (policy : Fallback.Policy) (nodeOf : String → Option NodeId)
    (position : Nat) (dead : NodeId) (g h : Graph) : Prop where
  copied : t.Copied policy nodeOf position g h
  refused : ∃ step node, t.steps[position]? = some step ∧
    step.CopiedTo t policy nodeOf g.slots.size node ∧
    IsFirst (fun input ↦ h.contains input = false) node.inputs dead

theorem stoppedAt_append (policy : Fallback.Policy)
    (hall : ∀ slot ∈ t.slots, nodeOf slot ≠ none)
    (hinputs : ∀ position step, t.steps[position]? = some step →
      ∀ input ∈ step.inputs, t.InputInRange position input)
    {position : Nat} {node : Node} {dead : NodeId}
    (hnode : (t.copies policy (t.slots.filterMap nodeOf) g.slots.size)[position]? = some node)
    (hdead : (node.inputs.find? fun input ↦ !(g.append
      ((t.copies policy (t.slots.filterMap nodeOf) g.slots.size).take position)).contains input) =
        some dead) :
    t.StoppedAt policy nodeOf position dead g
      (g.append ((t.copies policy (t.slots.filterMap nodeOf) g.slots.size).take position)) := by
  rw [getElem?_copies] at hnode
  obtain ⟨step, hstep, rfl⟩ := Option.map_eq_some_iff.mp hnode
  have hlt : position < t.steps.length := (List.getElem?_eq_some_iff.mp hstep).1
  exact
    { copied := copied_append hall policy hinputs (Nat.le_of_lt hlt) g
      refused := ⟨step, _, hstep, copiedTo_copy hall _ (hinputs position step hstep),
        isFirst_of_find? (fun _ ↦ by simp) hdead⟩ }

/-- An instantiation that is refused leaves the session alone, and all nodes that were there.  If a
slot is not bound it adds no node; otherwise it stops at a step that names a node that is not live,
and the copies of the steps before stay. -/
theorem instantiate_refused
    (hinputs : ∀ position step, t.steps[position]? = some step →
      ∀ input ∈ step.inputs, t.InputInRange position input)
    {e : UnitError} {session' : Session}
    (hrefused : t.instantiate policy bindings g session = (.error e, h, session')) :
    session' = session ∧
      ((∃ slot, IsFirst (fun slot ↦ bindings.get? slot = none) t.slots slot ∧
        e = .templateBinding t.key slot ∧ h = g) ∨
      (∀ slot ∈ t.slots, bindings.get? slot ≠ none) ∧
        ∃ position dead, t.StoppedAt policy bindings.get? position dead g h ∧
          e = .invalidNode dead ∧ (h = g ↔ position = 0)) := by
  rcases t.bound_cases bindings with ⟨slot, hfirst, hbound⟩ | ⟨hall, hbound⟩
  · rw [instantiate_of_unbound hbound] at hrefused
    cases hrefused
    exact ⟨rfl, .inl ⟨slot, hfirst, rfl, rfl⟩⟩
  · rcases g.addAll_cases (t.copies policy (t.slots.filterMap bindings.get?) g.slots.size) with
      hadd | ⟨position, node, dead, hnode, hdead, hadd⟩
    · rw [instantiate_of_addAll _ hbound hadd] at hrefused
      cases hrefused
    · rw [instantiate_of_addAll_error _ hbound hadd] at hrefused
      cases hrefused
      have hstopped := stoppedAt_append policy hall hinputs hnode hdead
      exact ⟨rfl, .inr ⟨hall, position, dead, hstopped, rfl, hstopped.copied.eq_iff⟩⟩

/-- The second step names a node that is not live, and the copy of the first one stays. -/
theorem instantiate_refused_shared :
    let bindings := Bindings.ofList [("x", 9), ("y", 1)]
    let outcome := shared.instantiate .keepCode bindings .octets {}
    (shared.WellFormed ∧ outcome.1 = .error (.invalidNode 9)) ∧ outcome.2.2 = {} ∧
      shared.StoppedAt .keepCode bindings.get? 1 9 .octets outcome.2.1 ∧ outcome.2.1 ≠ .octets := by
  intro bindings outcome
  have hwell : shared.WellFormed := by decide
  have herror : outcome.1 = .error (.invalidNode 9) := by decide +kernel
  have hsize : outcome.2.1.slots.size = 5 := by decide +kernel
  have hrefused : outcome = (.error (.invalidNode 9), outcome.2.1, outcome.2.2) :=
    Prod.ext herror rfl
  obtain ⟨hsession, hcases⟩ := instantiate_refused hwell.inputs_in_range hrefused
  rcases hcases with ⟨slot, -, hbinding, -⟩ | ⟨-, position, dead, hstopped, hdead, hsame⟩
  · cases hbinding
  · obtain rfl : 9 = dead := UnitError.invalidNode.inj hdead
    have hposition : outcome.2.1.slots.size = 4 + position := hstopped.copied.size_eq
    obtain rfl : position = 1 := by omega
    exact ⟨⟨hwell, herror⟩, hsession, hstopped, fun heq ↦ absurd (hsame.mp heq) (by decide)⟩

/-- The comparison with a divisor that is not live is refused, and the zero that it was to be
compared with stays. -/
theorem refused_copy_leaves_constant :
    let g : Graph := { slots := #[some ⟨.parameter 0, .anyInt 32, []⟩] }
    let bindings := Bindings.ofList [("x", 0), ("y", 7)]
    let outcome := (division ⟨.sdiv, 32⟩).instantiate .keepCode bindings g {}
    (division ⟨.sdiv, 32⟩).WellFormed ∧ outcome.1 = .error (.invalidNode 7) ∧
      outcome.2.1 = g.push ⟨.constant (.ofInt 32 0), .oneInt 32 0, []⟩ ∧ outcome.2.1 ≠ g := by
  decide +kernel

end DivGuard.Template
