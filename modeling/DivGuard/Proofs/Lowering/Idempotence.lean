import DivGuard.Proofs.Lowering.ClosedForm

/-!
# Running the pass again

A second run visits the divisions that the first one passed over, then those that it did not reach,
then the new safe ones.  So it meets the same refused node first, if there is one, and has nothing
to rewrite before it.
-/

namespace DivGuard

variable {l : Lowering} {g h : Graph} {ds : List NodeId} {n : NodeId} {w : Workspace}

namespace Lowering

theorem worklist_eq_filter_range (g : Graph) :
    worklist g = (List.range g.slots.size).filter fun id ↦
      (g.node? id).any fun node ↦ node.kind.isDivision := by
  rw [worklist, Graph.nodeIds, List.filter_filter]
  apply List.filter_congr
  intro id _
  rw [Graph.contains]
  cases g.node? id with
  | none => rfl
  | some node => simp

theorem skips_of_safe {op : DivOp} {node : Node} (hnode : g.node? n = some node)
    (hkind : node.kind = .safeDivRem op) : l.Skips g n := by
  obtain ⟨kind, stamp, inputs⟩ := node
  subst hkind
  exact .inl (decision_eq_alreadySafe_iff.mpr ⟨op, stamp, inputs, hnode⟩)

theorem run_of_skips (h : ∀ id ∈ worklist w.graph, l.Skips w.graph id) :
    ∃ session, l.run w = (.ok 0, { w with session }) := by
  let entered : Workspace := { w with session := w.session.enter w.graph.name }
  obtain ⟨session, hrun⟩ := lowerAll_append_of_skips (w := entered) h [] 0 []
  rw [List.append_nil] at hrun
  exact ⟨session, (l.run_eq_lowerAll w).trans hrun⟩

end Lowering

namespace Expansion

/-- The worklist of a lowered graph: the divisions that were not lowered, then new ones. -/
theorem worklist_eq (hx : Expansion l g ds h) :
    ∃ new, Lowering.worklist h = (Lowering.worklist g).filter (fun id ↦ decide (id ∉ ds)) ++ new ∧
      ∀ (l' : Lowering), ∀ id ∈ new, l'.Skips h id := by
  let division := fun id ↦ (h.node? id).any fun node ↦ node.kind.isDivision
  refine ⟨((List.range (4 * ds.length)).map (g.slots.size + ·)).filter division, ?_, ?_⟩
  · rw [Lowering.worklist_eq_filter_range h, Lowering.worklist_eq_filter_range g, hx.size_eq,
      List.range_add, List.filter_append, List.filter_filter]
    congr 1
    apply List.filter_congr
    intro id hid
    rw [hx.kept id (List.mem_range.mp hid)]
    by_cases hmem : id ∈ ds
    · simp [hmem]
    · cases g.node? id with
      | none => simp [hmem]
      | some node => simp [hmem, Node.mapInputs]
  · intro l' id hid
    obtain ⟨hnew, hdivision⟩ := List.mem_filter.mp hid
    obtain ⟨offset, -, rfl⟩ := List.mem_map.mp hnew
    obtain ⟨node, hnode, hkind⟩ := Option.any_eq_true _ _ |>.mp hdivision
    obtain ⟨op, hsafe⟩ := hx.safe_of_new (Nat.le_add_right _ _) hnode hkind
    exact Lowering.skips_of_safe hnode hsafe

theorem skips_of_divisions (hx : Expansion l g g.divisions h) (l' : Lowering) :
    ∀ id ∈ Lowering.worklist h, l'.Skips h id := by
  intro id hid
  obtain ⟨node, hnode, hdivision⟩ := Lowering.mem_worklist.mp hid
  rcases hx.node_cases hnode with
    ⟨hmem, ⟨kind, stamp, inputs⟩, hbefore, rfl⟩ | ⟨i, d, key, x, y, j, -, -, -, rfl, -⟩
  · cases kind with
    | safeDivRem op => exact Lowering.skips_of_safe hnode rfl
    | divRem op => exact absurd (Graph.mem_divisions.mpr ⟨_, hbefore, rfl⟩) hmem
    | parameter _ | constant _ | equals | guard _ | result => cases hdivision
  · obtain ⟨op, hsafe⟩ := hx.safe_of_new (by lia) hnode hdivision
    exact Lowering.skips_of_safe hnode hsafe

end Expansion

/-- Running again on what a run left: the nodes passed over before, then the rest as it was, then
divisions to be passed over. -/
theorem Lowering.Progress.worklist_again {ended : Except UnitError Nat × Workspace}
    (hprogress : l.Progress g [] (worklist g) 0 ended) :
    ∃ skipped rest new, worklist ended.2.graph = skipped ++ (rest ++ new) ∧
      (∀ id ∈ skipped ++ new, l.Skips ended.2.graph id) ∧
      ((rest = [] ∧ ∃ k, ended.1 = .ok k) ∨
        ∃ bad rest' e, rest = bad :: rest' ∧ l.decision ended.2.graph bad = .refuse e ∧
          ended.1 = .error e) := by
  obtain ⟨before, rest, hsplit, hbefore, hfinal, hend⟩ := hprogress
  rw [List.nil_append] at hfinal
  have hlt : ∀ id ∈ before ++ rest, id < g.slots.size := fun id hid ↦
    lt_size_of_mem_worklist (hsplit ▸ hid)
  have hapart : ∀ id ∈ rest, id ∉ before.filter (l.rewrites g) := by
    intro id hrest hmem
    have hnodup : (before ++ rest).Nodup := hsplit ▸ worklist_nodup g
    exact List.disjoint_of_nodup_append hnodup (List.mem_of_mem_filter hmem) hrest
  obtain ⟨new, hagain, hnew⟩ := hfinal.worklist_eq
  have hrest : rest.filter (fun id ↦ decide (id ∉ before.filter (l.rewrites g))) = rest :=
    List.filter_eq_self.mpr fun id hid ↦ decide_eq_true (hapart id hid)
  refine ⟨before.filter fun id ↦ decide (id ∉ before.filter (l.rewrites g)), rest, new, ?_, ?_, ?_⟩
  · rw [hagain, hsplit, List.filter_append, hrest, List.append_assoc]
  · intro id hid
    rcases List.mem_append.mp hid with hskipped | hid
    · obtain ⟨hmem, hkept⟩ := List.mem_filter.mp hskipped
      have hnot : id ∉ before.filter (l.rewrites g) := of_decide_eq_true hkept
      rw [hfinal.skips_iff_of_not_mem l (hlt id (List.mem_append_left rest hmem)) hnot]
      rcases hbefore id hmem with hskips | hrewrites
      · exact hskips
      · exact absurd (List.mem_filter.mpr ⟨hmem, hrewrites⟩) hnot
    · exact hnew l id hid
  · cases rest with
    | nil => exact .inl ⟨rfl, _, hend⟩
    | cons bad rest' =>
        obtain ⟨e, hrefuse, herror⟩ := hend
        refine .inr ⟨bad, rest', e, rfl, ?_, herror⟩
        exact (hfinal.decision_eq_refuse_iff_of_not_mem l (hlt bad (by simp))
          (hapart bad List.mem_cons_self)).mpr hrefuse

theorem Lowering.run_of_complete (hclosed : w.graph.Closed) {again : Workspace} {k : Nat}
    (hgraph : again.graph = (l.run w).2.graph) (hok : (l.run w).1 = .ok k)
    (hrequired : l.required = true) (l' : Lowering) :
    ∃ session, l'.run again = (.ok 0, { again with session }) := by
  obtain ⟨hpassed, hfinal, -⟩ := (l.run_progress w (.inl hclosed)).of_ok hok
  rw [filter_rewrites_worklist hrequired hpassed, ← hgraph] at hfinal
  exact run_of_skips (hfinal.skips_of_divisions l')

/-- A second run changes no slot, builds no template and ends as the first one did, with nothing
left to replace.  After a complete run this holds of every other run too. -/
theorem Lowering.run_again (hclosed : w.graph.Closed) (again : Workspace)
    (hgraph : again.graph = (l.run w).2.graph) :
    (l.run again).2.graph = again.graph ∧ (l.run again).2.cache = again.cache ∧
      (∀ k, (l.run w).1 = .ok k → (l.run again).1 = .ok 0) ∧
      (∀ e, (l.run w).1 = .error e → (l.run again).1 = .error e) ∧
      (∀ k, (l.run w).1 = .ok k → l.required = true → ∀ l' : Lowering,
        (l'.run again).1 = .ok 0 ∧ (l'.run again).2.graph = again.graph ∧
          (l'.run again).2.cache = again.cache) := by
  have hany : ∀ k, (l.run w).1 = .ok k → l.required = true → ∀ l' : Lowering,
      (l'.run again).1 = .ok 0 ∧ (l'.run again).2.graph = again.graph ∧
        (l'.run again).2.cache = again.cache := by
    intro k hok hrequired l'
    obtain ⟨session, hrun⟩ := run_of_complete hclosed hgraph hok hrequired l'
    rw [hrun]
    exact ⟨rfl, rfl, rfl⟩
  obtain ⟨skipped, rest, new, hworklist, hskips, hend⟩ :=
    (l.run_progress w (.inl hclosed)).worklist_again
  rw [← hgraph] at hworklist hskips hend
  rcases hend with ⟨rfl, k, hok⟩ | ⟨bad, rest', e, rfl, hrefuse, herror⟩
  · obtain ⟨session, hrun⟩ := run_of_skips (l := l) (w := again) (by rwa [hworklist])
    rw [hrun]
    refine ⟨rfl, rfl, fun _ _ ↦ rfl, ?_, hany⟩
    intro e herror
    cases hok.symm.trans herror
  · let entered : Workspace := { again with session := again.session.enter again.graph.name }
    obtain ⟨session, hrun⟩ := lowerAll_append_of_skips (l := l) (w := entered)
      (fun id hid ↦ hskips id (List.mem_append_left new hid)) (bad :: rest' ++ new) 0 []
    have hfail : l.run again = (.error e, { entered with session }) := by
      rw [run_eq_lowerAll, hworklist]
      exact hrun.trans (lowerAll_of_refuse (w := { entered with session }) hrefuse _ _ _)
    rw [hfail]
    refine ⟨rfl, rfl, ?_, ?_, hany⟩
    · intro k hok
      cases hok.symm.trans herror
    · intro e' herror'
      cases herror'.symm.trans herror
      rfl

/-- A division that can be lowered before one that cannot. -/
def Graph.narrow : Graph where
  name := "narrow"
  slots := #[some ⟨.parameter 0, .anyInt 32, []⟩, some ⟨.parameter 1, .anyInt 16, []⟩,
    some ⟨.divRem .sdiv, .anyInt 32, [0, 0]⟩, some ⟨.divRem .urem, .anyInt 16, [1, 2]⟩,
    some ⟨.result, .void, [3]⟩]

theorem Lowering.run_again_narrow :
    let l : Lowering := { target := .aarch64 }
    let left := (l.run { graph := .narrow }).2
    Graph.narrow.Closed ∧ (l.run { graph := .narrow }).1 = .error (.unsupportedWidth .urem 16) ∧
      left.graph ≠ .narrow ∧ (l.run left).2.graph = left.graph ∧
        (l.run left).1 = .error (.unsupportedWidth .urem 16) := by
  intro l left
  have hclosed : Graph.narrow.Closed := by decide
  have hfail : (l.run { graph := .narrow }).1 = .error (.unsupportedWidth .urem 16) := by
    decide +kernel
  have hagain := run_again (l := l) (w := { graph := .narrow }) hclosed left rfl
  exact ⟨hclosed, hfail, by decide +kernel, hagain.1, hagain.2.2.2.1 _ hfail⟩

end DivGuard
