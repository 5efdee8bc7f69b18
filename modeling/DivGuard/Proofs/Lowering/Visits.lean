import DivGuard.Proofs.Lowering.Walk

/-!
# What a visit leaves behind

Lowering a node changes the graph and makes an entry in the statistics.  Both depend on the graph
alone: every template in a cache or among those fetched is the division template of its key.  A run
is therefore the same as calls of `lower` on the divisions one after the other, up to the first
error, whatever was in its cache and whatever is in theirs.
-/

namespace DivGuard

variable {l : Lowering} {id : NodeId} {w : Workspace}

/-- A node that was to be lowered, and what came of it. -/
structure Visit where
  /-- The operation, if the node was an unchecked division of two operands. -/
  op? : Option DivOp
  result : Except UnitError Lowered

def Graph.visit (g : Graph) (id : NodeId) (result : Except UnitError Lowered) : Visit where
  op? := (g.division? id).map Prod.fst
  result := result

def Lowered.isReplaced : Lowered → Bool
  | .replaced _ => true
  | .alreadySafe | .notRequired => false

namespace Visit

def replaces (visit : Visit) : Bool :=
  match visit.result with
  | .ok lowered => lowered.isReplaced
  | .error _ => false

/-- The node was left as it was, and this is no error. -/
def skips (visit : Visit) : Bool :=
  match visit.result with
  | .ok lowered => !lowered.isReplaced
  | .error _ => false

/-- The operation of a division that the visit replaced. -/
def rewritten? (visit : Visit) : Option DivOp :=
  if visit.replaces then visit.op? else none

/-- How many nodes were replaced, or the first error. -/
def total (visits : List Visit) : Except UnitError Nat :=
  (visits.mapM Visit.result).map (List.countP Lowered.isReplaced)

theorem total_cons_of_ok {visit : Visit} {lowered : Lowered} (h : visit.result = .ok lowered)
    (visits : List Visit) :
    total (visit :: visits) = (total visits).map (· + if lowered.isReplaced then 1 else 0) := by
  simp only [total, List.mapM_cons, h]
  cases visits.mapM Visit.result with
  | error e => rfl
  | ok results => exact congrArg Except.ok List.countP_cons

end Visit

/-- The statistics with the entries of a visit. -/
def Statistics.record (s : Statistics) (visit : Visit) : Statistics :=
  match visit.rewritten? with
  | some op => (s.recordInstantiated 4).recordLowered op.name
  | none => if visit.skips then s.recordSkipped else s

namespace Lowering

/-! ## One node -/

theorem visit_of_rewrite {key : Template.Key} {x y : NodeId}
    (h : l.decision w.graph id = .rewrite key x y) (new : NodeId) :
    (w.graph.visit id (.ok (.replaced new))).rewritten? = some key.op := by
  obtain ⟨-, -, stamp, -, hnode⟩ := decision_eq_rewrite_iff.mp h
  simp only [Graph.visit, Graph.division?, hnode]
  rfl

/-- Neither the templates fetched before, nor the cache, nor the session has a say in what lowering
a node comes to. -/
theorem lowerWith_congr (l : Lowering) (id : NodeId) (fetched fetched' : Fetched) {u w : Workspace}
    (hgraph : u.graph = w.graph) :
    (l.lowerWith id fetched' u).1 = (l.lowerWith id fetched w).1 ∧
      (l.lowerWith id fetched' u).2.2.graph = (l.lowerWith id fetched w).2.2.graph := by
  obtain ⟨g, session, cache⟩ := w
  obtain ⟨g', session', cache'⟩ := u
  obtain rfl : g' = g := hgraph
  cases hdecision : l.decision g' id with
  | refuse e =>
      rw [lowerWith_of_refuse hdecision, lowerWith_of_refuse hdecision]
      exact ⟨rfl, rfl⟩
  | alreadySafe =>
      rw [lowerWith_of_alreadySafe hdecision, lowerWith_of_alreadySafe hdecision]
      exact ⟨rfl, rfl⟩
  | notRequired =>
      rw [lowerWith_of_notRequired hdecision, lowerWith_of_notRequired hdecision]
      exact ⟨rfl, rfl⟩
  | rewrite key x y =>
      rcases g'.addAll_cases (Template.guarded l.policy key x y g'.slots.size) with
        hadd | ⟨k, node, dead, -, -, hadd⟩
      · rw [lowerWith_of_addAll (w := ⟨g', session, cache⟩) hdecision hadd,
          lowerWith_of_addAll (w := ⟨g', session', cache'⟩) hdecision hadd]
        exact ⟨rfl, rfl⟩
      · rw [lowerWith_of_addAll_error (w := ⟨g', session, cache⟩) hdecision hadd,
          lowerWith_of_addAll_error (w := ⟨g', session', cache'⟩) hdecision hadd]
        exact ⟨rfl, rfl⟩

theorem lowerWith_statistics (l : Lowering) (id : NodeId) (fetched : Fetched) (w : Workspace) :
    (l.lowerWith id fetched w).2.2.session.statistics =
      w.session.statistics.record (w.graph.visit id (l.lowerWith id fetched w).1) := by
  cases hdecision : l.decision w.graph id with
  | refuse e =>
      rw [lowerWith_of_refuse hdecision]
      rfl
  | alreadySafe =>
      rw [lowerWith_of_alreadySafe hdecision]
      rfl
  | notRequired =>
      rw [lowerWith_of_notRequired hdecision]
      rfl
  | rewrite key x y =>
      rcases w.graph.addAll_cases (Template.guarded l.policy key x y w.graph.slots.size) with
        hadd | ⟨k, node, dead, -, -, hadd⟩
      · rw [lowerWith_of_addAll hdecision hadd, Statistics.record, visit_of_rewrite hdecision]
        rfl
      · rw [lowerWith_of_addAll_error hdecision hadd]
        rfl

/-! ## Nodes in order -/

/-- Lowers nodes one after the other, each by a call of its own, up to the first error.  The cache
is renewed before each call. -/
def lowerInTurn (l : Lowering) (renew : Template.Cache → Template.Cache) :
    List NodeId → Workspace → List Visit × Workspace
  | [], w => ([], w)
  | id :: ids, w =>
    match l.lower id { w with cache := renew w.cache } with
    | (.error e, w') => ([w.graph.visit id (.error e)], w')
    | (.ok lowered, w') =>
      let (visits, w'') := l.lowerInTurn renew ids w'
      (w.graph.visit id (.ok lowered) :: visits, w'')

section Cons

variable {renew : Template.Cache → Template.Cache} {fetched fetched' : Fetched} {w' : Workspace}

theorem lowerInTurn_cons_of_error {e : UnitError} (ids : List NodeId)
    (h : l.lowerWith id [] { w with cache := renew w.cache } = (.error e, fetched', w')) :
    l.lowerInTurn renew (id :: ids) w = ([w.graph.visit id (.error e)], w') := by
  simp only [lowerInTurn, lower, h]

theorem lowerInTurn_cons_of_ok {lowered : Lowered} (ids : List NodeId)
    (h : l.lowerWith id [] { w with cache := renew w.cache } = (.ok lowered, fetched', w')) :
    l.lowerInTurn renew (id :: ids) w =
      (w.graph.visit id (.ok lowered) :: (l.lowerInTurn renew ids w').1,
        (l.lowerInTurn renew ids w').2) := by
  simp only [lowerInTurn, lower, h]

theorem lowerAll_cons_of_error {e : UnitError} (ids : List NodeId) (count : Nat)
    (h : l.lowerWith id fetched w = (.error e, fetched', w')) :
    l.lowerAll (id :: ids) count fetched w = (.error e, w') := by
  simp only [lowerAll, h]

theorem lowerAll_cons_of_ok {lowered : Lowered} (ids : List NodeId) (count : Nat)
    (h : l.lowerWith id fetched w = (.ok lowered, fetched', w')) :
    l.lowerAll (id :: ids) count fetched w =
      l.lowerAll ids (count + if lowered.isReplaced then 1 else 0) fetched' w' := by
  cases lowered <;> simp only [lowerAll, h] <;> rfl

end Cons

theorem lowerInTurn_statistics (l : Lowering) (renew : Template.Cache → Template.Cache)
    (ids : List NodeId) (w : Workspace) :
    (l.lowerInTurn renew ids w).2.session.statistics =
      (l.lowerInTurn renew ids w).1.foldl Statistics.record w.session.statistics := by
  induction ids generalizing w with
  | nil => rfl
  | cons id ids ih =>
      have hstep := l.lowerWith_statistics id [] { w with cache := renew w.cache }
      rcases hlower : l.lowerWith id [] { w with cache := renew w.cache } with
        ⟨_ | lowered, fetched', w'⟩
      all_goals rw [hlower] at hstep
      · rw [lowerInTurn_cons_of_error ids hlower]
        exact hstep
      · rw [lowerInTurn_cons_of_ok ids hlower, List.foldl_cons, ← hstep]
        exact ih w'

theorem lowerAll_eq_lowerInTurn (l : Lowering) (renew : Template.Cache → Template.Cache)
    (ids : List NodeId) (count : Nat) (fetched : Fetched) {u w : Workspace}
    (hgraph : u.graph = w.graph) :
    let calls := l.lowerInTurn renew ids u
    (l.lowerAll ids count fetched w).1 = (Visit.total calls.1).map (count + ·) ∧
      (l.lowerAll ids count fetched w).2.graph = calls.2.graph ∧
      (l.lowerAll ids count fetched w).2.session.statistics =
        calls.1.foldl Statistics.record w.session.statistics := by
  induction ids generalizing count fetched u w with
  | nil => exact ⟨rfl, hgraph.symm, rfl⟩
  | cons id ids ih =>
      have hstep := l.lowerWith_statistics id fetched w
      have hsame := l.lowerWith_congr id fetched [] (u := { u with cache := renew u.cache })
        hgraph
      rcases hlower : l.lowerWith id fetched w with ⟨result, fetched', next⟩
      rcases hcall : l.lowerWith id [] { u with cache := renew u.cache } with ⟨result', _, next'⟩
      simp only [hlower, hcall] at hstep hsame
      obtain ⟨rfl, hnext⟩ := hsame
      cases result' with
      | error e =>
          rw [lowerAll_cons_of_error ids count hlower, lowerInTurn_cons_of_error ids hcall, hgraph]
          exact ⟨rfl, hnext.symm, hstep⟩
      | ok lowered =>
          obtain ⟨hresult, hfinal, hrecord⟩ :=
            ih (count + if lowered.isReplaced then 1 else 0) fetched' hnext
          rw [lowerAll_cons_of_ok ids count hlower, lowerInTurn_cons_of_ok ids hcall]
          refine ⟨?_, hfinal, ?_⟩
          · rw [hresult, Visit.total_cons_of_ok rfl]
            cases Visit.total (l.lowerInTurn renew ids next').1 with
            | error e => rfl
            | ok replaced =>
                simp only [Except.map, Except.ok.injEq]
                omega
          · rw [hrecord, hstep, List.foldl_cons, hgraph]

/-- A run returns, leaves and records what calls of `lower` would on the nodes that were divisions
at the start, with no template fetched before and whatever cache each of them is given. -/
theorem run_eq_lowerInTurn (l : Lowering) (renew : Template.Cache → Template.Cache) (w : Workspace)
    (session : Session) (cache : Template.Cache) :
    let divisions := w.graph.nodeIds.filter fun id ↦
      match w.graph.node? id with
      | some ⟨.divRem _, _, _⟩ | some ⟨.safeDivRem _, _, _⟩ => true
      | _ => false
    let calls := l.lowerInTurn renew divisions ⟨w.graph, session, cache⟩
    (l.run w).1 = Visit.total calls.1 ∧ (l.run w).2.graph = calls.2.graph ∧
      (l.run w).2.session.statistics = calls.1.foldl Statistics.record w.session.statistics ∧
      calls.2.session.statistics = calls.1.foldl Statistics.record session.statistics := by
  intro divisions calls
  have hdivisions : divisions = worklist w.graph := by
    refine List.filter_congr fun id _ ↦ ?_
    rcases w.graph.node? id with _ | ⟨⟨⟩, _, _⟩ <;> rfl
  let entered : Workspace := { w with session := w.session.enter w.graph.name }
  have hrun : l.run w = l.lowerAll divisions 0 [] entered := hdivisions ▸ l.run_eq_lowerAll w
  obtain ⟨hresult, hgraph, hstatistics⟩ := l.lowerAll_eq_lowerInTurn renew divisions 0 []
    (u := ⟨w.graph, session, cache⟩) (w := entered) rfl
  rw [← hrun] at hresult hgraph hstatistics
  refine ⟨?_, hgraph, hstatistics, l.lowerInTurn_statistics renew _ _⟩
  rw [hresult]
  cases Visit.total calls.1 <;> simp [Except.map]

end Lowering

end DivGuard
