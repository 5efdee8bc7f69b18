import DivGuard.Proofs.Lowering.Runs
import Mathlib.Data.List.Basic

/-!
# Sequences of calls

A graph can be lowered node by node, by runs, or by both in any order, and errors need not end it.
The replacements that the calls report say which divisions the graph was expanded along.
-/

namespace DivGuard

variable {l : Lowering} {g : Graph} {ds : List NodeId} {d : NodeId} {w : Workspace}

namespace Lowering

inductive Call where
  | lower (id : NodeId)
  | run

/-- The replacements that lowering nodes in order makes, up to the first error. -/
def replacements (l : Lowering) : List NodeId → Fetched → Workspace → List (NodeId × NodeId)
  | [], _, _ => []
  | id :: ids, fetched, w =>
    match l.lowerWith id fetched w with
    | (.error _, _, _) => []
    | (.ok (.replaced new), fetched, w) => (id, new) :: l.replacements ids fetched w
    | (.ok _, fetched, w) => l.replacements ids fetched w

def Call.replacements (l : Lowering) (w : Workspace) : Call → List (NodeId × NodeId)
  | .lower id =>
    match (l.lower id w).1 with
    | .ok (.replaced new) => [(id, new)]
    | .ok .alreadySafe | .ok .notRequired | .error _ => []
  | .run =>
    l.replacements (worklist w.graph) [] { w with session := w.session.enter w.graph.name }

def Call.after (l : Lowering) (w : Workspace) : Call → Workspace
  | .lower id => (l.lower id w).2
  | .run => (l.run w).2

/-- Makes calls one after the other and collects their replacements. -/
def perform (l : Lowering) : List Call → Workspace → List (NodeId × NodeId) × Workspace
  | [], w => ([], w)
  | call :: calls, w =>
    let (log, w') := l.perform calls (call.after l w)
    (call.replacements l w ++ log, w')

/-! A single node is lowered like the only one of a list, and a run lowers a list too. -/

theorem after_lower (l : Lowering) (id : NodeId) (w : Workspace) :
    (Call.lower id).after l w = (l.lowerAll [id] 0 [] w).2 := by
  simp only [Call.after, lowerAll, lower]
  rcases l.lowerWith id [] w with ⟨_ | _ | _ | _, _, _⟩ <;> rfl

theorem after_run (l : Lowering) (w : Workspace) :
    Call.run.after l w =
      (l.lowerAll (worklist w.graph) 0 []
        { w with session := w.session.enter w.graph.name }).2 :=
  congrArg Prod.snd (l.run_eq_lowerAll w)

theorem replacements_lower (l : Lowering) (id : NodeId) (w : Workspace) :
    (Call.lower id).replacements l w = l.replacements [id] [] w := by
  simp only [Call.replacements, replacements, lower]
  rcases l.lowerWith id [] w with ⟨_ | _ | _ | _, _, _⟩ <;> rfl

/-- The node that stands for another one after replacements. -/
def standIn (log : List (NodeId × NodeId)) (n : NodeId) : NodeId := (log.lookup n).getD n

end Lowering

namespace Graph

def standIns (g : Graph) (ds : List NodeId) : List (NodeId × NodeId) :=
  ds.map fun d ↦ (d, g.image ds d)

theorem standIns_append_singleton (hd : d ∉ ds) :
    g.standIns (ds ++ [d]) = g.standIns ds ++ [(d, g.slots.size + 4 * ds.length + 3)] := by
  have hold : ∀ e ∈ ds, g.image (ds ++ [d]) e = g.image ds e := by
    intro e he
    simp [image, he, List.idxOf_append_of_mem he]
  have hnew : g.image (ds ++ [d]) d = g.slots.size + 4 * ds.length + 3 := by
    simp [image, List.idxOf_append_of_notMem hd]
  simp only [standIns, List.map_append, List.map_cons, List.map_nil, hnew]
  rw [List.map_congr_left fun e he ↦ by rw [hold e he]]

theorem standIn_standIns (g : Graph) (ds : List NodeId) (n : NodeId) :
    Lowering.standIn (g.standIns ds) n = g.image ds n := by
  by_cases hn : n ∈ ds
  · rw [Lowering.standIn, standIns, List.lookup_graph _ hn]
    rfl
  · have hnone : (g.standIns ds).lookup n = none := by
      rw [List.lookup_eq_none_iff]
      intro entry hentry
      obtain ⟨e, he, rfl⟩ := List.mem_map.mp hentry
      simpa using fun heq : n = e ↦ hn (heq ▸ he)
    rw [Lowering.standIn, hnone, image_of_not_mem hn]
    rfl

end Graph

namespace Expansion

theorem lowerAll_replacements (hx : Expansion l g ds w.graph) (hclosed : g.Closed)
    (ids : List NodeId) (count : Nat) (fetched : Lowering.Fetched) :
    ∃ es, Expansion l g (ds ++ es) (l.lowerAll ids count fetched w).2.graph ∧
      g.standIns ds ++ l.replacements ids fetched w = g.standIns (ds ++ es) := by
  induction ids generalizing ds count fetched w with
  | nil => exact ⟨[], by simpa [Lowering.lowerAll] using hx, by simp [Lowering.replacements]⟩
  | cons id ids ih =>
      rcases hx.lowerWith_cases hclosed id fetched with
        ⟨hn, fetched', w', hstep, hx'⟩ | ⟨result, fetched', w', hstep, hresult, hgraph⟩
      · obtain ⟨es, hes, hlog⟩ := ih hx' (count + 1) fetched'
        refine ⟨id :: es, ?_, ?_⟩
        · simpa [Lowering.lowerAll, hstep] using hes
        · simpa [Lowering.replacements, hstep, Graph.standIns_append_singleton hn] using hlog
      · have hx' : Expansion l g ds w'.graph := hgraph ▸ hx
        cases result with
        | error e =>
            exact ⟨[], by simpa [Lowering.lowerAll, hstep] using hx',
              by simp [Lowering.replacements, hstep]⟩
        | ok lowered =>
            cases lowered with
            | replaced new => exact absurd rfl (hresult new)
            | alreadySafe | notRequired =>
                simpa only [Lowering.lowerAll, Lowering.replacements, hstep] using
                  ih hx' count fetched'

theorem call_replacements (hx : Expansion l g ds w.graph) (hclosed : g.Closed)
    (call : Lowering.Call) :
    ∃ es, Expansion l g (ds ++ es) (call.after l w).graph ∧
      g.standIns ds ++ call.replacements l w = g.standIns (ds ++ es) := by
  cases call with
  | lower id =>
      rw [Lowering.after_lower, Lowering.replacements_lower]
      exact hx.lowerAll_replacements hclosed [id] 0 []
  | run =>
      let entered : Workspace := { w with session := w.session.enter w.graph.name }
      rw [Lowering.after_run]
      exact lowerAll_replacements (w := entered) hx hclosed (Lowering.worklist w.graph) 0 []

theorem perform_replacements (hx : Expansion l g ds w.graph) (hclosed : g.Closed)
    (calls : List Lowering.Call) :
    ∃ es, Expansion l g (ds ++ es) (l.perform calls w).2.graph ∧
      g.standIns ds ++ (l.perform calls w).1 = g.standIns (ds ++ es) := by
  induction calls generalizing ds w with
  | nil => exact ⟨[], by simpa [Lowering.perform] using hx, by simp [Lowering.perform]⟩
  | cons call calls ih =>
      obtain ⟨es, hx', hlog⟩ := hx.call_replacements hclosed call
      obtain ⟨es', hx'', hlog'⟩ := ih hx'
      refine ⟨es ++ es', by simpa [Lowering.perform] using hx'', ?_⟩
      simpa [Lowering.perform, ← List.append_assoc, hlog] using hlog'

end Expansion

theorem Lowering.perform_expansion (l : Lowering) (calls : List Call) (w : Workspace)
    (hclosed : w.graph.Closed) :
    ∃ ds, Expansion l w.graph ds (l.perform calls w).2.graph ∧
      (l.perform calls w).1 = w.graph.standIns ds := by
  simpa [Graph.standIns] using (Expansion.refl l w.graph).perform_replacements hclosed calls

/-! ## What calls keep in graphs of any kind

Graphs with dead inputs have no expansion.  There, too, lowering a node either puts a guarded
division in its place or adds some of the nodes before the division, or nothing. -/

namespace Lowering

section Induction

variable {p : Graph → Prop}
  (hpart : ∀ g key x y, ∀ k < 4, p g →
    p (g.append ((Template.guarded l.policy key x y g.slots.size).take k)))
  (hguard : ∀ g key id x y, l.decision g id = .rewrite key x y → p g →
    p (g.guard l.policy key id x y))

include hpart hguard

theorem lowerWith_induction (id : NodeId) (fetched : Fetched) (hg : p w.graph) :
    p (l.lowerWith id fetched w).2.2.graph := by
  cases hdecision : l.decision w.graph id with
  | refuse e => rwa [lowerWith_of_refuse hdecision]
  | alreadySafe => rwa [lowerWith_of_alreadySafe hdecision]
  | notRequired => rwa [lowerWith_of_notRequired hdecision]
  | rewrite key x y =>
      rcases lowerWith_of_rewrite_cases fetched hdecision with hok | ⟨e, -, k, hk, hgraph⟩
      · rw [hok]
        exact hguard w.graph key id x y hdecision hg
      · rw [hgraph]
        exact hpart w.graph key x y k hk hg

theorem lowerAll_induction (ids : List NodeId) (count : Nat) (fetched : Fetched)
    (hg : p w.graph) : p (l.lowerAll ids count fetched w).2.graph := by
  induction ids generalizing count fetched w with
  | nil => exact hg
  | cons id ids ih =>
      have hstep : p (l.lowerWith id fetched w).2.2.graph :=
        lowerWith_induction hpart hguard id fetched hg
      unfold lowerAll
      rcases hlower : l.lowerWith id fetched w with ⟨_ | _ | _ | _, fetched', w'⟩
      all_goals rw [hlower] at hstep
      · exact hstep
      · exact ih _ _ hstep
      · exact ih _ _ hstep
      · exact ih _ _ hstep

theorem Call.after_induction (call : Call) (hg : p w.graph) : p (call.after l w).graph := by
  cases call with
  | lower id =>
      rw [after_lower]
      exact lowerAll_induction hpart hguard [id] 0 [] hg
  | run =>
      let entered : Workspace := { w with session := w.session.enter w.graph.name }
      rw [after_run]
      exact lowerAll_induction (w := entered) hpart hguard (worklist w.graph) 0 [] hg

end Induction

end Lowering

end DivGuard
