import DivGuard.Proofs.Lowering.Calls

/-!
# Edits of a graph

All that can be done to a graph: nodes are added in five ways, a node takes the place of another, a
template is copied in, divisions are lowered.  An edit that is refused counts with what it did
before.  Each edit comes with the session and the cache that it uses, so edits may share them or
not.
-/

namespace DivGuard

inductive Edit where
  | add (node : Node)
  | addParameter (index : Nat) (stamp : Stamp)
  | addConstant (value : Constant) (encoding? : Option Encoding)
  | addDivRem (op : DivOp) (x y : NodeId)
  | addResult (value : NodeId)
  | replace (old new : NodeId)
  | instantiate (template : Template) (policy : Fallback.Policy) (bindings : Bindings)
      (session : Session)
  | lower (l : Lowering) (call : Lowering.Call) (session : Session) (cache : Template.Cache)

namespace Edit

/-- What an operation leaves that changes nothing if it is refused. -/
def settle (g : Graph) : Except UnitError Graph → Graph
  | .error _ => g
  | .ok h => h

def after (g : Graph) : Edit → Graph
  | .add node => settle g ((g.add node).map Prod.snd)
  | .addParameter index stamp => (g.addParameter index stamp).2
  | .addConstant value encoding? => settle g ((g.addConstant value encoding?).map Prod.snd)
  | .addDivRem op x y => settle g ((g.addDivRem op x y).map Prod.snd)
  | .addResult value => settle g ((g.addResult value).map Prod.snd)
  | .replace old new => settle g (g.replace old new)
  | .instantiate template policy bindings session =>
    (template.instantiate policy bindings g session).2.1
  | .lower l call session cache => (call.after l ⟨g, session, cache⟩).graph

/-- What an edit that adds a single node returns. -/
def insertion? (g : Graph) : Edit → Option (Except UnitError (NodeId × Graph))
  | .add node => some (g.add node)
  | .addParameter index stamp => some (.ok (g.addParameter index stamp))
  | .addConstant value encoding? => some (g.addConstant value encoding?)
  | .addDivRem op x y => some (g.addDivRem op x y)
  | .addResult value => some (g.addResult value)
  | .replace _ _ | .instantiate _ _ _ _ | .lower _ _ _ _ => none

section Insertion

variable {g : Graph} {e : Edit} {result : Except UnitError (NodeId × Graph)}
  (h : e.insertion? g = some result)

include h

theorem after_of_insertion? : e.after g = settle g (result.map Prod.snd) := by
  cases e with
  | replace old new | instantiate t policy bindings session | lower l call session cache => cases h
  | add node | addParameter index stamp | addConstant value encoding? | addDivRem op x y
  | addResult value =>
      obtain rfl := Option.some.inj h
      rfl

/-- An insertion is refused, or it adds a node with live inputs and returns the next number. -/
theorem insertion?_cases :
    (∃ error, result = .error error) ∨ ∃ node, (∀ input ∈ node.inputs, g.contains input = true) ∧
      result = .ok (g.slots.size, g.push node) := by
  have hadd : ∀ node result, g.add node = result → (∃ error, result = .error error) ∨
      ∃ node, (∀ input ∈ node.inputs, g.contains input = true) ∧
        result = .ok (g.slots.size, g.push node) := by
    rintro node (error | ⟨id, h⟩) hresult
    · exact .inl ⟨error, rfl⟩
    · obtain ⟨hlive, rfl, rfl⟩ := Graph.add_eq_ok_iff.mp hresult
      exact .inr ⟨node, hlive, rfl⟩
  cases e with
  | replace old new | instantiate t policy bindings session | lower l call session cache => cases h
  | add node | addResult value => exact hadd _ _ (Option.some.inj h)
  | addParameter index stamp =>
      obtain rfl := Option.some.inj h
      exact .inr ⟨_, by simp, rfl⟩
  | addConstant value encoding? =>
      obtain rfl := Option.some.inj h
      unfold Graph.addConstant
      split
      · exact .inl ⟨_, rfl⟩
      · exact hadd _ _ rfl
  | addDivRem op x y =>
      obtain rfl := Option.some.inj h
      unfold Graph.addDivRem
      split
      · exact .inl ⟨_, rfl⟩
      · split
        · exact .inl ⟨_, rfl⟩
        · exact hadd _ _ rfl

end Insertion

section Induction

variable {g : Graph} {p : Graph → Prop}
  (hpush : ∀ g node, (∀ input ∈ node.inputs, g.contains input = true) → p g → p (g.push node))

include hpush

theorem instantiate_induction (t : Template) (policy : Fallback.Policy) (bindings : Bindings)
    (session : Session) (hg : p g) : p (t.instantiate policy bindings g session).2.1 := by
  cases hbound : t.bound bindings with
  | error e => rwa [Template.instantiate_of_unbound hbound]
  | ok bound =>
      rw [Template.instantiate_graph hbound]
      exact Graph.addAll_induction hpush (t.copies policy bound g.slots.size) hg

/-- What holds after an edit: edits add nodes with live inputs, except for the two kinds that put
nodes in the place of others. -/
theorem after_induction (e : Edit) (hg : p g)
    (hreplace : ∀ old new, e = .replace old new → g.contains old = true →
      g.contains new = true → p (g.redirect old new))
    (hlower : ∀ l call session cache, e = .lower l call session cache →
      p (call.after l ⟨g, session, cache⟩).graph) : p (after g e) := by
  cases hinsertion : e.insertion? g with
  | some result =>
      rw [after_of_insertion? hinsertion]
      rcases insertion?_cases hinsertion with ⟨error, rfl⟩ | ⟨node, hlive, rfl⟩
      · exact hg
      · exact hpush g node hlive hg
  | none =>
      cases e with
      | add node | addParameter index stamp | addConstant value encoding? | addDivRem op x y
      | addResult value => cases hinsertion
      | replace old new =>
          simp only [after, Graph.replace]
          by_cases hold : g.contains old = true
          · by_cases hnew : g.contains new = true
            · simpa [hold, hnew, settle] using hreplace old new rfl hold hnew
            · simpa [hold, hnew, settle] using hg
          · simpa [hold, settle] using hg
      | instantiate t policy bindings session =>
          exact instantiate_induction hpush t policy bindings session hg
      | lower l call session cache => exact hlower l call session cache rfl

end Induction

end Edit

namespace Graph

def edit (g : Graph) (edits : List Edit) : Graph := edits.foldl Edit.after g

theorem edit_append_singleton (g : Graph) (edits : List Edit) (e : Edit) :
    g.edit (edits ++ [e]) = Edit.after (g.edit edits) e := List.foldl_append ..

theorem edit_take_succ (g : Graph) {edits : List Edit} {i : Nat} {e : Edit}
    (h : edits[i]? = some e) :
    g.edit (edits.take (i + 1)) = Edit.after (g.edit (edits.take i)) e := by
  rw [List.take_add_one, h]
  exact g.edit_append_singleton (edits.take i) e

theorem edit_take_of_length_le (g : Graph) {edits : List Edit} {i : Nat} (h : edits.length ≤ i) :
    g.edit (edits.take i) = g.edit edits := by
  rw [List.take_of_length_le h]

end Graph

end DivGuard
