import DivGuard.Proofs.Editing.Edits
import DivGuard.Proofs.Graph.Ledger

/-!
# Numbers of nodes

Whoever holds the number of a node may keep it while the graph is edited.  Every operation is
entered in a ledger step by step, from what its insertions and replacements return, also if it is
refused half way.  The graph develops as the ledger says, so numbers are issued in order from zero,
and each of them stands for one node for good.
-/

namespace DivGuard

variable {g : Graph} {e : Edit} {result : Except UnitError (NodeId × Graph)}

/-! ## The entries of an operation -/

/-- The entries for nodes that are added in order, up to the first that is refused. -/
def Graph.addAllLedger (g : Graph) : List Node → Ledger
  | [] => {}
  | node :: rest =>
    match g.add node with
    | .error _ => {}
    | .ok (id, g) => { issued := [id] } ++ g.addAllLedger rest

def Template.ledger (t : Template) (policy : Fallback.Policy) (bindings : Bindings) (g : Graph) :
    Ledger :=
  match t.bound bindings with
  | .error _ => {}
  | .ok bound => g.addAllLedger (t.copies policy bound g.slots.size)

namespace Lowering

/-- The entries for an instance of a template in the place of a division. -/
def substituteLedger (l : Lowering) (template : Template) (id x y : NodeId) (w : Workspace) :
    Ledger :=
  let bindings := ({} : Bindings).bind Template.dividendSlot x |>.bind Template.divisorSlot y
  let copied := template.ledger l.policy bindings w.graph
  match template.instantiate l.policy bindings w.graph w.session with
  | (.error _, _, _) => copied
  | (.ok new, graph, _) => copied ++ .ofReplaced id (graph.replace id new)

def ledgerWith (l : Lowering) (id : NodeId) (fetched : Fetched) (w : Workspace) : Ledger :=
  match l.decision w.graph id with
  | .refuse _ | .alreadySafe | .notRequired => {}
  | .rewrite key x y =>
    let (template, _, cache) := fetch key fetched w.cache
    l.substituteLedger template id x y { w with cache }

/-- The entries for nodes that are lowered in order, up to the first error. -/
def ledgerAll (l : Lowering) : List NodeId → Fetched → Workspace → Ledger
  | [], _, _ => {}
  | id :: ids, fetched, w =>
    l.ledgerWith id fetched w ++
      match l.lowerWith id fetched w with
      | (.error _, _, _) => {}
      | (.ok _, fetched, w) => l.ledgerAll ids fetched w

def Call.ledger (l : Lowering) (w : Workspace) : Call → Ledger
  | .lower id => l.ledgerWith id [] w
  | .run => l.ledgerAll (worklist w.graph) [] { w with session := w.session.enter w.graph.name }

end Lowering

namespace Edit

def ledger (g : Graph) : Edit → Ledger
  | .replace old new => .ofReplaced old (g.replace old new)
  | .instantiate template policy bindings _ => template.ledger policy bindings g
  | .lower l call session cache => call.ledger l ⟨g, session, cache⟩
  | e => (e.insertion? g).elim {} .ofInserted

end Edit

/-- The entries of a sequence of edits. -/
def Graph.ledger (g : Graph) : List Edit → Ledger
  | [] => {}
  | e :: edits => e.ledger g ++ (e.after g).ledger edits

/-! ## Graphs develop as their ledgers say -/

namespace Graph

theorem develops_addAll (g : Graph) (nodes : List Node) :
    g.Develops (g.addAllLedger nodes) (g.addAll nodes).2 := by
  induction nodes generalizing g with
  | nil => exact .refl g
  | cons node nodes ih =>
      cases hadd : g.add node with
      | error e => simpa only [addAll, addAllLedger, hadd] using Develops.refl g
      | ok added =>
          obtain ⟨id, h⟩ := added
          obtain ⟨-, rfl, rfl⟩ := add_eq_ok_iff.mp hadd
          simpa only [addAll, addAllLedger, hadd] using (develops_push g node).trans (ih _)

theorem develops_instantiate (g : Graph) (t : Template) (policy : Fallback.Policy)
    (bindings : Bindings) (session : Session) :
    g.Develops (t.ledger policy bindings g) (t.instantiate policy bindings g session).2.1 := by
  unfold Template.ledger
  cases hbound : t.bound bindings with
  | error e =>
      rw [Template.instantiate_of_unbound hbound]
      exact .refl g
  | ok bound =>
      rw [Template.instantiate_graph hbound]
      exact g.develops_addAll (t.copies policy bound g.slots.size)

theorem develops_replace (g : Graph) (old new : NodeId) :
    g.Develops (.ofReplaced old (g.replace old new)) (Edit.settle g (g.replace old new)) := by
  unfold replace
  split
  · exact .refl g
  · next hold =>
    split
    · exact .refl g
    · exact develops_redirect (by simpa using hold) new

theorem ledger_of_insertion? (h : e.insertion? g = some result) :
    e.ledger g = .ofInserted result := by
  cases e with
  | replace old new | instantiate t policy bindings session | lower l call session cache => cases h
  | add node | addParameter index stamp | addConstant value encoding? | addDivRem op x y
  | addResult value => exact congrArg (Option.elim · {} Ledger.ofInserted) h

theorem develops_insertion (h : e.insertion? g = some result) :
    g.Develops (e.ledger g) (e.after g) := by
  rw [Edit.after_of_insertion? h, ledger_of_insertion? h]
  rcases Edit.insertion?_cases h with ⟨error, rfl⟩ | ⟨node, -, rfl⟩
  · exact .refl g
  · exact develops_push g node

end Graph

/-! ### Lowering -/

namespace Lowering

theorem develops_substitute (l : Lowering) (template : Template) (id x y : NodeId)
    (w : Workspace) :
    w.graph.Develops (l.substituteLedger template id x y w)
      (l.substitute template id x y w).2.graph := by
  unfold substituteLedger substitute
  dsimp only
  generalize (({} : Bindings).bind Template.dividendSlot x).bind Template.divisorSlot y = bindings
  have hcopied := w.graph.develops_instantiate template l.policy bindings w.session
  rcases hinstance : template.instantiate l.policy bindings w.graph w.session with
    ⟨_ | new, graph, session⟩
  all_goals rw [hinstance] at hcopied
  · exact hcopied
  · have hreplaced := hcopied.trans (graph.develops_replace id new)
    dsimp only
    cases hreplace : graph.replace id new
    all_goals rwa [hreplace] at hreplaced

theorem develops_lowerWith (l : Lowering) (id : NodeId) (fetched : Fetched) (w : Workspace) :
    w.graph.Develops (l.ledgerWith id fetched w) (l.lowerWith id fetched w).2.2.graph := by
  cases hdecision : l.decision w.graph id with
  | refuse e => simpa only [ledgerWith, lowerWith, hdecision] using Graph.Develops.refl w.graph
  | alreadySafe => simpa only [ledgerWith, lowerWith, hdecision] using Graph.Develops.refl w.graph
  | notRequired => simpa only [ledgerWith, lowerWith, hdecision] using Graph.Develops.refl w.graph
  | rewrite key x y =>
      simp only [ledgerWith, lowerWith, hdecision]
      have hsubstituted := l.develops_substitute (fetch key fetched w.cache).1 id x y
        { w with cache := (fetch key fetched w.cache).2.2 }
      split
      · next h =>
        rw [h] at hsubstituted
        exact hsubstituted
      · next h =>
        rw [h] at hsubstituted
        exact hsubstituted

theorem develops_lowerAll (l : Lowering) (ids : List NodeId) (count : Nat) (fetched : Fetched)
    (w : Workspace) :
    w.graph.Develops (l.ledgerAll ids fetched w) (l.lowerAll ids count fetched w).2.graph := by
  induction ids generalizing count fetched w with
  | nil => exact .refl w.graph
  | cons id ids ih =>
      have hstep := l.develops_lowerWith id fetched w
      unfold ledgerAll lowerAll
      rcases hlower : l.lowerWith id fetched w with ⟨_ | _ | _ | _, fetched', w'⟩
      all_goals rw [hlower] at hstep
      · exact hstep.trans (.refl w'.graph)
      · exact hstep.trans (ih _ fetched' w')
      · exact hstep.trans (ih _ fetched' w')
      · exact hstep.trans (ih _ fetched' w')

theorem Call.develops_after (call : Call) (l : Lowering) (w : Workspace) :
    w.graph.Develops (call.ledger l w) (call.after l w).graph := by
  cases call with
  | lower id => exact l.develops_lowerWith id [] w
  | run =>
      rw [after_run]
      exact l.develops_lowerAll (worklist w.graph) 0 []
        { w with session := w.session.enter w.graph.name }

end Lowering

/-! ### Sequences of edits -/

namespace Graph

theorem develops_after (g : Graph) (e : Edit) : g.Develops (e.ledger g) (e.after g) := by
  cases e with
  | replace old new => exact g.develops_replace old new
  | instantiate t policy bindings session => exact g.develops_instantiate t policy bindings session
  | lower l call session cache => exact call.develops_after l ⟨g, session, cache⟩
  | add node | addParameter index stamp | addConstant value encoding? | addDivRem op x y
  | addResult value => exact develops_insertion rfl

theorem develops_edit (g : Graph) (edits : List Edit) :
    g.Develops (g.ledger edits) (g.edit edits) := by
  induction edits generalizing g with
  | nil => exact .refl g
  | cons e edits ih => exact (g.develops_after e).trans (ih (e.after g))

/-- Numbers are issued from zero on without gaps, and never twice; an insertion that is refused
issues none.  Live are the nodes whose numbers were issued and that were not deleted.  A node that
was deleted stays so, and one that is live keeps its kind and its stamp, whatever is done later. -/
theorem numbers_are_stable (name : String) (edits later : List Edit) :
    let g : Graph := edit { name } edits
    let book : Ledger := ledger { name } edits
    (book.issued = List.range book.issued.length ∧ book.issued.Nodup) ∧
    (∀ e error, Edit.insertion? g e = some (.error error) → e.ledger g = {} ∧ e.after g = g) ∧
    (∀ e id h, Edit.insertion? g e = some (.ok (id, h)) →
      id = book.issued.length ∧ e.ledger g = { issued := [id] } ∧ e.after g = h) ∧
    (∀ id ∈ book.deleted, (g.edit later).contains id = false) ∧
    (∀ id before after, g.node? id = some before → (g.edit later).node? id = some after →
      after.kind = before.kind ∧ after.stamp = before.stamp) ∧
    (g.nodeIds.Pairwise (· < ·) ∧ (∀ id, id ∈ g.nodeIds ↔ g.contains id = true) ∧
      ∀ id, g.contains id = true ↔ id ∈ book.issued ∧ id ∉ book.deleted) ∧
    book.deleted.Nodup ∧ g.liveCount + book.deleted.length = book.issued.length := by
  intro g book
  have hbook : Develops { name } book g := develops_edit { name } edits
  have hlater : g.Develops (g.ledger later) (g.edit later) := g.develops_edit later
  have hissued : book.issued = List.range book.issued.length := by
    rw [List.range_eq_range']
    exact hbook.issued_eq
  have hempty : ∀ id, Graph.contains { name } id = false := by simp [contains, node?]
  refine ⟨⟨hissued, hissued ▸ List.nodup_range⟩, fun e error he ↦ ?_, fun e id h he ↦ ?_,
    fun id ↦ hbook.not_contains_of_deleted hlater, hlater.kept,
    ⟨g.nodeIds_pairwise, fun id ↦ mem_nodeIds, fun id ↦ ?_⟩, hbook.deleted_nodup, ?_⟩
  · exact ⟨ledger_of_insertion? he, Edit.after_of_insertion? he⟩
  · rcases Edit.insertion?_cases he with ⟨error, herror⟩ | ⟨node, -, hnode⟩
    · cases herror
    · obtain ⟨rfl, rfl⟩ := Prod.mk.inj (Except.ok.inj hnode)
      have hsize : g.slots.size = book.issued.length := by simpa using hbook.size_eq
      exact ⟨hsize, ledger_of_insertion? he, Edit.after_of_insertion? he⟩
  · simpa [hempty] using hbook.live_iff id
  · simpa [liveCount, nodeIds] using hbook.liveCount_eq

/-- Two insertions are refused among others, the quotient is lowered, a template is refused half
way, and the guarded division takes its own place.  Then the quotient is used again, in vain. -/
theorem numbers_are_stable_mixed :
    let edits : List Edit := [.addParameter 0 (.anyInt 32), .addResult 1,
      .addParameter 1 (.anyInt 32), .addDivRem .sdiv 0 1, .addDivRem .sdiv 5 1, .addResult 2,
      .lower { target := .aarch64 } .run {} {},
      .instantiate (.division ⟨.udiv, 32⟩) .keepCode (.ofList [("x", 0), ("y", 2)]) {},
      .replace 7 7]
    let later : List Edit := [.addResult 2, .addResult 8]
    let g : Graph := edit {} edits
    let book : Ledger := ledger {} edits
    (book = ⟨List.range 9, [2, 7]⟩ ∧ g.liveCount + 2 = 9) ∧
      (Edit.insertion? g (.addResult 2) = some (.error (.invalidNode 2)) ∧
        Edit.after g (.addResult 2) = g) ∧
      (2 ∈ book.deleted ∧ (g.edit later).contains 2 = false) ∧
      ∃ h, Edit.insertion? g (.addResult 8) = some (.ok (9, h)) ∧
        Edit.ledger g (.addResult 8) = { issued := [9] } := by
  intro edits later g book
  have hbook : book = ⟨List.range 9, [2, 7]⟩ := by decide +kernel
  have hrefused : Edit.insertion? g (.addResult 2) = some (.error (.invalidNode 2)) := by
    decide +kernel
  have hadded : Edit.insertion? g (.addResult 8) =
      some (.ok (9, g.push ⟨.result, .void, [8]⟩)) := by
    decide +kernel
  have hdeleted : 2 ∈ book.deleted := by
    rw [hbook]
    decide
  obtain ⟨-, hnothing, hnext, hgone, -, -, -, hcount⟩ := numbers_are_stable "" edits later
  have hlive : g.liveCount + book.deleted.length = book.issued.length := hcount
  rw [hbook] at hlive
  exact ⟨⟨hbook, hlive⟩, ⟨hrefused, (hnothing _ _ hrefused).2⟩, ⟨hdeleted, hgone 2 hdeleted⟩, _,
    hadded, (hnext _ _ _ hadded).2.1⟩

end Graph

end DivGuard
