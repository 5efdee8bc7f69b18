import DivGuard.Proofs.Lowering.Soundness
import DivGuard.Proofs.Lowering.Visits

/-!
# What a call of `lower` comes to

The node alone decides it, together with the target and the options: not the session, and not the
cache.  In a closed graph nothing can go wrong after the decision, as the operands of the division
stay live while the graph grows.  So a call that is refused leaves everything as it was.
-/

namespace DivGuard.Lowering

variable {l : Lowering} {w : Workspace} {id x y : NodeId} {op : DivOp} {stamp : Stamp}
  {key : Template.Key} {e : UnitError}

theorem lower_of_refuse (h : l.decision w.graph id = .refuse e) :
    l.lower id w = (.error e, w) := by
  simp only [lower, lowerWith_of_refuse h]

theorem lower_of_alreadySafe (h : l.decision w.graph id = .alreadySafe) :
    l.lower id w = (.ok .alreadySafe, { w with session := w.session.recordSkipped }) := by
  simp only [lower, lowerWith_of_alreadySafe h]

theorem lower_of_notRequired (h : l.decision w.graph id = .notRequired) :
    l.lower id w = (.ok .notRequired, { w with session := w.session.recordSkipped }) := by
  simp only [lower, lowerWith_of_notRequired h]

theorem lower_of_rewrite (hclosed : w.graph.Closed)
    (h : l.decision w.graph id = .rewrite key x y) :
    l.lower id w =
      (.ok (.replaced (w.graph.slots.size + 3)), l.rewritten key id x y [] w) := by
  simp only [lower, lowerWith_of_closed hclosed h]

/-- Whatever template has been fetched, it can be put in the place of the division. -/
theorem substitute_fetched (hclosed : w.graph.Closed)
    (hnode : w.graph.node? id = some ⟨.divRem op, stamp, [x, y]⟩) (key : Template.Key)
    (fetched : Fetched) :
    ∃ new left, l.substitute (fetch key fetched w.cache).1 id x y
      { w with cache := (fetch key fetched w.cache).2.2 } = (.ok new, left) := by
  have hx : w.graph.contains x = true := hclosed id x ⟨_, hnode, by simp⟩
  have hy : w.graph.contains y = true := hclosed id y ⟨_, hnode, by simp⟩
  rw [fetch_template]
  exact ⟨_, _, substitute_of_addAll (Graph.contains_of_node? hnode)
    (Graph.addAll_guarded l.policy key hx hy)⟩

/-- A call is refused, or finds nothing to do, or replaces the node. -/
theorem lower_cases (l : Lowering) (id : NodeId) (hclosed : w.graph.Closed) :
    (∃ e, l.lower id w = (.error e, w)) ∨
    (∃ lowered : Lowered, lowered.isReplaced = false ∧
      l.lower id w = (.ok lowered, { w with session := w.session.recordSkipped })) ∨
    ∃ new left, l.lower id w = (.ok (.replaced new), left) := by
  cases hdecision : l.decision w.graph id with
  | refuse e => exact .inl ⟨e, lower_of_refuse hdecision⟩
  | alreadySafe => exact .inr (.inl ⟨.alreadySafe, rfl, lower_of_alreadySafe hdecision⟩)
  | notRequired => exact .inr (.inl ⟨.notRequired, rfl, lower_of_notRequired hdecision⟩)
  | rewrite key x y => exact .inr (.inr ⟨_, _, lower_of_rewrite hclosed hdecision⟩)

theorem lower_unchanged_of_error (hclosed : w.graph.Closed) (h : (l.lower id w).1 = .error e) :
    (l.lower id w).2 = w := by
  rcases l.lower_cases id hclosed with ⟨e', hlower⟩ | ⟨lowered, -, hlower⟩ | ⟨new, left, hlower⟩
  · rw [hlower]
  · simp [hlower] at h
  · simp [hlower] at h

theorem lower_counts_skipped (hclosed : w.graph.Closed) {lowered : Lowered}
    (h : (l.lower id w).1 = .ok lowered) (hskipped : lowered.isReplaced = false) :
    (l.lower id w).2 =
      { w with session.statistics.skipped := w.session.statistics.skipped + 1 } := by
  rcases l.lower_cases id hclosed with ⟨e, hlower⟩ | ⟨_, -, hlower⟩ | ⟨new, left, hlower⟩
  · simp [hlower] at h
  · rw [hlower]
    rfl
  · obtain rfl : Lowered.replaced new = lowered := by simpa [hlower] using h
    cases hskipped

/-- What a call of `lower` comes to, by what the node is, then by what the options and the target
ask for, then by the width.  A refused call leaves everything as it was, one that finds nothing to
do is counted, and nothing fails once there is a template. -/
theorem lower_decides (l : Lowering) (w : Workspace) (id : NodeId) (hclosed : w.graph.Closed) :
    (w.graph.contains id = false → (l.lower id w).1 = .error (.invalidNode id)) ∧
    (∀ op stamp inputs, w.graph.node? id = some ⟨.safeDivRem op, stamp, inputs⟩ →
      (l.lower id w).1 = .ok .alreadySafe) ∧
    (∀ op stamp inputs, w.graph.node? id = some ⟨.divRem op, stamp, inputs⟩ → inputs.length ≠ 2 →
      (l.lower id w).1 = .error (.invalidNode id)) ∧
    (∀ node, w.graph.node? id = some node → node.kind.isDivision = false →
      (l.lower id w).1 = .error (.unsupportedNode id node.kind)) ∧
    (∀ op stamp x y, w.graph.node? id = some ⟨.divRem op, stamp, [x, y]⟩ →
      let width := stamp.bits?.getD 0
      (l.required = false → (l.lower id w).1 = .ok .notRequired) ∧
      (l.required = true → width ≠ 32 → width ≠ l.target.wordBits →
        (l.lower id w).1 = .error (.unsupportedWidth op width)) ∧
      (l.required = true → width = 32 ∨ width = l.target.wordBits →
        l.lower id w = (.ok (.replaced (w.graph.slots.size + 3)),
          l.rewritten ⟨op, width⟩ id x y [] w)) ∧
      ∀ key fetched, ∃ new left, l.substitute (fetch key fetched w.cache).1 id x y
        { w with cache := (fetch key fetched w.cache).2.2 } = (.ok new, left)) ∧
    (∀ e, (l.lower id w).1 = .error e → (l.lower id w).2 = w) ∧
    ∀ lowered, (l.lower id w).1 = .ok lowered → lowered = .alreadySafe ∨ lowered = .notRequired →
      (l.lower id w).2 =
        { w with session.statistics.skipped := w.session.statistics.skipped + 1 } := by
  refine ⟨fun hdead ↦ ?_, fun op stamp inputs hnode ↦ ?_, fun op stamp inputs hnode hlength ↦ ?_,
    fun node hnode hkind ↦ ?_, fun op stamp x y hnode ↦ ⟨fun hrequired ↦ ?_,
      fun hrequired hnarrow hword ↦ ?_, fun hrequired hwidth ↦ ?_,
      substitute_fetched hclosed hnode⟩,
    fun e ↦ lower_unchanged_of_error hclosed, fun lowered h hskipped ↦ ?_⟩
  · have hnode : w.graph.node? id = none := by simpa [Graph.contains] using hdead
    rw [lower_of_refuse (decision_of_dead hnode)]
  · rw [lower_of_alreadySafe (decision_eq_alreadySafe_iff.mpr ⟨op, stamp, inputs, hnode⟩)]
  · rw [lower_of_refuse (decision_of_length_ne_two hnode hlength)]
  · rw [lower_of_refuse (decision_of_not_isDivision hnode hkind)]
  · rw [lower_of_notRequired (decision_of_not_required hnode hrequired)]
  · have hunsupported : l.target.supportsWidth (stamp.bits?.getD 0) = false := by
      simp [Target.supportsWidth, hnarrow, hword]
    rw [lower_of_refuse (decision_of_unsupported hnode hrequired hunsupported)]
  · have hsupported : l.target.supportsWidth (stamp.bits?.getD 0) = true := by
      simpa [Target.supportsWidth] using hwidth
    exact lower_of_rewrite hclosed (decision_of_supported hnode hrequired hsupported)
  · apply lower_counts_skipped hclosed h
    rcases hskipped with rfl | rfl <;> rfl

/-- Divisions of two widths, one that lacks its divisor, a guarded one, and an empty slot. -/
def assorted : Graph where
  name := "assorted"
  slots := #[some ⟨.parameter 0, .anyInt 32, []⟩, some ⟨.parameter 1, .anyInt 16, []⟩,
    some ⟨.divRem .sdiv, .anyInt 32, [0, 0]⟩, some ⟨.divRem .urem, .anyInt 16, [1, 2]⟩,
    some ⟨.divRem .udiv, .anyInt 32, [0]⟩, some ⟨.safeDivRem .srem, .anyInt 32, [2, 3, 4]⟩, none]

theorem lower_decides_assorted :
    let l : Lowering := { target := .aarch64 }
    let l' : Lowering := { target := .x86_64 }
    let w : Workspace := { graph := assorted }
    w.graph.Closed ∧
      (w.graph.contains 6 = false ∧ (l.lower 6 w).1 = .error (.invalidNode 6)) ∧
      (w.graph.node? 5 = some ⟨.safeDivRem .srem, .anyInt 32, [2, 3, 4]⟩ ∧
        (l.lower 5 w).1 = .ok .alreadySafe ∧
        (l.lower 5 w).2 =
          { w with session.statistics.skipped := w.session.statistics.skipped + 1 }) ∧
      (w.graph.node? 4 = some ⟨.divRem .udiv, .anyInt 32, [0]⟩ ∧
        (l.lower 4 w).1 = .error (.invalidNode 4)) ∧
      (w.graph.node? 0 = some ⟨.parameter 0, .anyInt 32, []⟩ ∧
        (l.lower 0 w).1 = .error (.unsupportedNode 0 (.parameter 0))) ∧
      (w.graph.node? 3 = some ⟨.divRem .urem, .anyInt 16, [1, 2]⟩ ∧ l.required = true ∧
        (l.lower 3 w).1 = .error (.unsupportedWidth .urem 16) ∧ (l.lower 3 w).2 = w) ∧
      w.graph.node? 2 = some ⟨.divRem .sdiv, .anyInt 32, [0, 0]⟩ ∧
        (l'.required = false ∧ (l'.lower 2 w).1 = .ok .notRequired) ∧
        l.lower 2 w = (.ok (.replaced 10), l.rewritten ⟨.sdiv, 32⟩ 2 0 0 [] w) ∧
        ∃ new left, l.substitute (.division ⟨.sdiv, 32⟩) 2 0 0
          { w with cache := (w.cache.get ⟨.sdiv, 32⟩).2 } = (.ok new, left) := by
  intro l l' w
  have hclosed : w.graph.Closed := by decide
  have h2 : w.graph.node? 2 = some ⟨.divRem .sdiv, .anyInt 32, [0, 0]⟩ := rfl
  have h3 : w.graph.node? 3 = some ⟨.divRem .urem, .anyInt 16, [1, 2]⟩ := rfl
  have h5 : w.graph.node? 5 = some ⟨.safeDivRem .srem, .anyInt 32, [2, 3, 4]⟩ := rfl
  obtain ⟨hdead, -⟩ := l.lower_decides w 6 hclosed
  obtain ⟨-, hsafe, -, -, -, -, hskipped⟩ := l.lower_decides w 5 hclosed
  obtain ⟨-, -, hshape, -⟩ := l.lower_decides w 4 hclosed
  obtain ⟨-, -, -, hkind, -⟩ := l.lower_decides w 0 hclosed
  obtain ⟨-, -, -, -, hnarrow, hsame, -⟩ := l.lower_decides w 3 hclosed
  obtain ⟨-, -, -, -, hfree, -⟩ := l'.lower_decides w 2 hclosed
  obtain ⟨-, -, -, -, hdivision, -⟩ := l.lower_decides w 2 hclosed
  have hrefused : (l.lower 3 w).1 = .error (.unsupportedWidth .urem 16) :=
    (hnarrow _ _ _ _ h3).2.1 rfl (by decide) (by decide)
  have hleft : (l.lower 5 w).1 = .ok .alreadySafe := hsafe _ _ _ h5
  exact ⟨hclosed, ⟨rfl, hdead rfl⟩, ⟨h5, hleft, hskipped _ hleft (.inl rfl)⟩,
    ⟨rfl, hshape _ _ _ rfl (by decide)⟩, ⟨rfl, hkind _ rfl rfl⟩,
    ⟨h3, rfl, hrefused, hsame _ hrefused⟩, h2, ⟨rfl, (hfree _ _ _ _ h2).1 rfl⟩,
    (hdivision _ _ _ _ h2).2.2.1 rfl (.inl rfl), (hdivision _ _ _ _ h2).2.2.2 ⟨.sdiv, 32⟩ []⟩

end DivGuard.Lowering
