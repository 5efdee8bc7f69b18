import DivGuard.Proofs.Lowering.Soundness
import DivGuard.Proofs.Lowering.Visits

/-!
# What a run rewrites

One lowered node extends an expansion by that node, so lowering nodes in order leaves an expansion
too.  It gets as far as the first node that is refused.  Which node that is, and which are rewritten
before it, can be read off the decisions on the graph as it was at the start: rewriting a node does
not change what is decided about the others.
-/

namespace DivGuard

variable {l : Lowering} {g h : Graph} {ds : List NodeId} {d n x y : NodeId} {key : Template.Key}
  {w : Workspace}

namespace Lowering

def rewrites (l : Lowering) (g : Graph) (n : NodeId) : Bool :=
  match l.decision g n with
  | .rewrite _ _ _ => true
  | .refuse _ | .alreadySafe | .notRequired => false

theorem rewrites_iff : l.rewrites g n = true ↔ ∃ key x y, l.decision g n = .rewrite key x y := by
  unfold rewrites
  cases l.decision g n <;> simp

def Skips (l : Lowering) (g : Graph) (n : NodeId) : Prop :=
  l.decision g n = .alreadySafe ∨ l.decision g n = .notRequired

theorem Skips.rewrites_eq_false (h : l.Skips g n) : l.rewrites g n = false := by
  rcases h with h | h <;> simp [rewrites, h]

theorem lowerWith_of_skips (h : l.Skips w.graph n) (fetched : Fetched) :
    ∃ result, l.lowerWith n fetched w =
      (.ok result, fetched, { w with session := w.session.recordSkipped }) ∧
      ∀ new, result ≠ .replaced new := by
  rcases h with h | h
  · exact ⟨_, lowerWith_of_alreadySafe h, by simp⟩
  · exact ⟨_, lowerWith_of_notRequired h, by simp⟩

theorem lowerAll_of_skips (h : l.Skips w.graph n) (ids : List NodeId) (count : Nat)
    (fetched : Fetched) :
    l.lowerAll (n :: ids) count fetched w =
      l.lowerAll ids count fetched { w with session := w.session.recordSkipped } := by
  obtain ⟨result, hstep, hresult⟩ := lowerWith_of_skips h fetched
  rw [lowerAll_cons_of_ok ids count hstep]
  cases result with
  | replaced new => exact absurd rfl (hresult new)
  | alreadySafe | notRequired => rfl

theorem lowerAll_of_refuse {e : UnitError} (h : l.decision w.graph n = .refuse e)
    (ids : List NodeId) (count : Nat) (fetched : Fetched) :
    l.lowerAll (n :: ids) count fetched w = (.error e, w) :=
  lowerAll_cons_of_error ids count (lowerWith_of_refuse h)

theorem lowerAll_append_of_skips {skipped : List NodeId} (h : ∀ id ∈ skipped, l.Skips w.graph id)
    (ids : List NodeId) (count : Nat) (fetched : Fetched) :
    ∃ session, l.lowerAll (skipped ++ ids) count fetched w =
      l.lowerAll ids count fetched { w with session } := by
  induction skipped generalizing w with
  | nil => exact ⟨w.session, rfl⟩
  | cons id skipped ih =>
      rw [List.cons_append, lowerAll_of_skips (h id List.mem_cons_self)]
      exact ih fun next hnext ↦ h next (List.mem_cons_of_mem id hnext)

theorem lowerAll_of_replaced {new : NodeId} {fetched fetched' : Fetched} {w' : Workspace}
    (h : l.lowerWith n fetched w = (.ok (.replaced new), fetched', w')) (ids : List NodeId)
    (count : Nat) :
    l.lowerAll (n :: ids) count fetched w = l.lowerAll ids (count + 1) fetched' w' :=
  lowerAll_cons_of_ok ids count h

theorem lowerAll_of_error {e : UnitError} {fetched : Fetched}
    (h : (l.lowerWith n fetched w).1 = .error e) (ids : List NodeId) (count : Nat) :
    (l.lowerAll (n :: ids) count fetched w).1 = .error e := by
  rcases hstep : l.lowerWith n fetched w with ⟨result, fetched', w'⟩
  obtain rfl : result = .error e := by simpa [hstep] using h
  rw [lowerAll_cons_of_error ids count hstep]

/-- How lowering ends that meets these nodes next: they are none, or the first is refused. -/
def EndsAt (l : Lowering) (g : Graph) (rest : List NodeId) (count : Nat)
    (result : Except UnitError Nat) : Prop :=
  match rest with
  | [] => result = .ok count
  | bad :: _ => ∃ e, l.decision g bad = .refuse e ∧ result = .error e

/-- What came of lowering nodes in order, seen from the graph before any was lowered: those before
the first refused one were passed over or rewritten. -/
def Progress (l : Lowering) (g : Graph) (ds ids : List NodeId) (count : Nat)
    (ended : Except UnitError Nat × Workspace) : Prop :=
  ∃ before rest, ids = before ++ rest ∧
    (∀ id ∈ before, l.Skips g id ∨ l.rewrites g id = true) ∧
    Expansion l g (ds ++ before.filter (l.rewrites g)) ended.2.graph ∧
    l.EndsAt g rest (count + (before.filter (l.rewrites g)).length) ended.1

namespace Progress

variable {ids : List NodeId} {count : Nat} {ended : Except UnitError Nat × Workspace}

theorem skip (h : l.Progress g ds ids count ended) (hskips : l.Skips g n) :
    l.Progress g ds (n :: ids) count ended := by
  obtain ⟨before, rest, rfl, hbefore, hfinal, hend⟩ := h
  refine ⟨n :: before, rest, rfl, ?_, ?_, ?_⟩
  · simpa using ⟨.inl hskips, hbefore⟩
  · simpa [hskips.rewrites_eq_false] using hfinal
  · simpa [hskips.rewrites_eq_false] using hend

theorem rewrite (h : l.Progress g (ds ++ [n]) ids (count + 1) ended)
    (hrewrites : l.rewrites g n = true) : l.Progress g ds (n :: ids) count ended := by
  obtain ⟨before, rest, rfl, hbefore, hfinal, hend⟩ := h
  refine ⟨n :: before, rest, rfl, ?_, ?_, ?_⟩
  · simpa using ⟨.inr hrewrites, hbefore⟩
  · simpa [hrewrites] using hfinal
  · rw [List.filter_cons_of_pos hrewrites, List.length_cons, Nat.add_comm _ 1, ← Nat.add_assoc]
    exact hend

end Progress

end Lowering

namespace Expansion

/-- A division that is to be rewritten is, unless the graph has dead inputs. -/
theorem lowerWith_of_rewrite (hx : Expansion l g ds w.graph) (hn : n ∉ ds)
    (hdecision : l.decision g n = .rewrite key x y) (fetched : Lowering.Fetched) :
    (∃ fetched' w', l.lowerWith n fetched w =
        (.ok (.replaced (g.slots.size + 4 * ds.length + 3)), fetched', w') ∧
      Expansion l g (ds ++ [n]) w'.graph) ∨
    ¬g.Closed ∧ ∃ e, (l.lowerWith n fetched w).1 = .error e := by
  have hlt : n < g.slots.size :=
    Graph.lt_size_of_contains (Lowering.contains_of_rewrite hdecision)
  have hnow : l.decision w.graph n = .rewrite key (g.image ds x) (g.image ds y) := by
    rw [hx.decision_of_not_mem l hlt hn, hdecision]
    rfl
  rcases Lowering.lowerWith_of_rewrite_cases fetched hnow with hok | ⟨e, herror, -⟩
  · rw [hx.size_eq] at hok
    exact .inl ⟨_, _, hok, hx.guard hn hdecision⟩
  · refine .inr ⟨fun hclosed ↦ ?_, e, herror⟩
    obtain ⟨hux, huy⟩ := Lowering.uses_of_rewrite hdecision
    rw [Lowering.lowerWith_of_rewrite hnow (hx.contains_image (hclosed _ _ hux))
      (hx.contains_image (hclosed _ _ huy))] at herror
    cases herror

/-- Lowering any node of a closed graph rewrites it or leaves the graph alone. -/
theorem lowerWith_cases (hx : Expansion l g ds w.graph) (hclosed : g.Closed) (n : NodeId)
    (fetched : Lowering.Fetched) :
    (n ∉ ds ∧ ∃ fetched' w', l.lowerWith n fetched w =
        (.ok (.replaced (g.slots.size + 4 * ds.length + 3)), fetched', w') ∧
      Expansion l g (ds ++ [n]) w'.graph) ∨
    ∃ result fetched' w', l.lowerWith n fetched w = (result, fetched', w') ∧
      (∀ new, result ≠ .ok (.replaced new)) ∧ w'.graph = w.graph := by
  cases hdecision : l.decision w.graph n with
  | refuse e => exact .inr ⟨_, _, _, Lowering.lowerWith_of_refuse hdecision, by simp, rfl⟩
  | alreadySafe => exact .inr ⟨_, _, _, Lowering.lowerWith_of_alreadySafe hdecision, by simp, rfl⟩
  | notRequired => exact .inr ⟨_, _, _, Lowering.lowerWith_of_notRequired hdecision, by simp, rfl⟩
  | rewrite key x' y' =>
      obtain ⟨hn, x, y, hold, -, -⟩ := hx.decision_eq_rewrite hdecision
      rcases hx.lowerWith_of_rewrite hn hold fetched with hok | ⟨hopen, -⟩
      · exact .inl ⟨hn, hok⟩
      · exact absurd hclosed hopen

theorem skips_iff_of_not_mem (hx : Expansion l g ds h) (l' : Lowering) (hlt : n < g.slots.size)
    (hn : n ∉ ds) : l'.Skips h n ↔ l'.Skips g n := by
  rw [Lowering.Skips, hx.decision_of_not_mem l' hlt hn, Lowering.Skips]
  cases l'.decision g n <;> simp [Lowering.Decision.mapOperands]

theorem decision_eq_refuse_iff_of_not_mem (hx : Expansion l g ds h) (l' : Lowering)
    (hlt : n < g.slots.size) (hn : n ∉ ds) {e : UnitError} :
    l'.decision h n = .refuse e ↔ l'.decision g n = .refuse e := by
  rw [hx.decision_of_not_mem l' hlt hn]
  cases l'.decision g n <;> simp [Lowering.Decision.mapOperands]

/-- Lowering distinct nodes of the graph.  Where it has dead inputs, only runs that succeed are
covered. -/
theorem lowerAll_progress (hx : Expansion l g ds w.graph) {ids : List NodeId}
    (hnodup : (ds ++ ids).Nodup) (hlt : ∀ id ∈ ids, id < g.slots.size) (count : Nat)
    (fetched : Lowering.Fetched)
    (hlive : g.Closed ∨ ∃ k, (l.lowerAll ids count fetched w).1 = .ok k) :
    l.Progress g ds ids count (l.lowerAll ids count fetched w) := by
  induction ids generalizing ds count fetched w with
  | nil => exact ⟨[], [], rfl, by simp, by simpa [Lowering.lowerAll] using hx, rfl⟩
  | cons id ids ih =>
      have hid : id < g.slots.size := hlt id List.mem_cons_self
      have hids : ∀ next ∈ ids, next < g.slots.size :=
        fun next hnext ↦ hlt next (List.mem_cons_of_mem id hnext)
      have hrest : (ds ++ ids).Nodup :=
        hnodup.sublist ((List.sublist_cons_self id ids).append_left ds)
      have hmem : id ∉ ds := fun hmem ↦
        (List.disjoint_of_nodup_append hnodup) hmem List.mem_cons_self
      have hpass : l.Skips g id →
          l.Progress g ds (id :: ids) count (l.lowerAll (id :: ids) count fetched w) := by
        intro hskips
        rw [Lowering.lowerAll_of_skips ((hx.skips_iff_of_not_mem l hid hmem).mpr hskips)] at hlive ⊢
        exact (ih (w := { w with session := w.session.recordSkipped }) hx hrest hids count fetched
          hlive).skip hskips
      cases hdecision : l.decision g id with
      | refuse e =>
          have hnow := (hx.decision_eq_refuse_iff_of_not_mem l hid hmem).mpr hdecision
          rw [Lowering.lowerAll_of_refuse hnow]
          exact ⟨[], id :: ids, rfl, by simp, by simpa using hx, e, hdecision, rfl⟩
      | alreadySafe => exact hpass (.inl hdecision)
      | notRequired => exact hpass (.inr hdecision)
      | rewrite key x y =>
          rcases hx.lowerWith_of_rewrite hmem hdecision fetched with
            ⟨fetched', w', hstep, hx'⟩ | ⟨hopen, e, herror⟩
          · rw [Lowering.lowerAll_of_replaced hstep] at hlive ⊢
            exact (ih hx' (by simpa using hnodup) hids (count + 1) fetched' hlive).rewrite
              (Lowering.rewrites_iff.mpr ⟨key, x, y, hdecision⟩)
          · exfalso
            rcases hlive with hclosed | ⟨k, hk⟩
            · exact hopen hclosed
            · rw [Lowering.lowerAll_of_error herror] at hk
              cases hk

end Expansion

namespace Lowering

/-! ## Complete runs -/

theorem run_progress (l : Lowering) (w : Workspace)
    (hlive : w.graph.Closed ∨ ∃ k, (l.run w).1 = .ok k) :
    l.Progress w.graph [] (worklist w.graph) 0 (l.run w) := by
  rw [run_eq_lowerAll] at hlive ⊢
  exact Expansion.lowerAll_progress (w := { w with session := w.session.enter w.graph.name })
    (.refl l w.graph) (worklist_nodup w.graph) (fun _ ↦ lt_size_of_mem_worklist) 0 [] hlive

theorem run_expansion (l : Lowering) (w : Workspace) (hclosed : w.graph.Closed) :
    ∃ ds, Expansion l w.graph ds (l.run w).2.graph := by
  obtain ⟨before, rest, -, -, hx, -⟩ := l.run_progress w (.inl hclosed)
  exact ⟨_, hx⟩

end Lowering

/-- `x / y / y`.  The outer division stands before its dividend, as after an edit. -/
def Graph.nested : Graph where
  name := "nested"
  slots := #[some ⟨.parameter 0, .anyInt 32, []⟩, some ⟨.parameter 1, .anyInt 32, []⟩,
    some ⟨.divRem .sdiv, .anyInt 32, [3, 1]⟩, some ⟨.divRem .sdiv, .anyInt 32, [0, 1]⟩,
    some ⟨.result, .void, [2]⟩]

end DivGuard
