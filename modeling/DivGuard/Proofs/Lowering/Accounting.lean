import DivGuard.Proofs.Editing.Closedness
import DivGuard.Proofs.Graph.Population
import DivGuard.Proofs.Lowering.Visits
import DivGuard.Proofs.Session.Tallies
import Mathlib.Algebra.BigOperators.Group.Finset.Basic

/-!
# The books of a session

Several graphs can be lowered in one session, in any order and under changing configurations.  What
the session counts at the end are the divisions that were replaced in them and the visits that
replaced nothing, and the graphs have gained and lost nodes accordingly.
-/

namespace DivGuard

variable {g : Graph} {id : NodeId} {w : Workspace} {op : DivOp} {visit : Visit}

/-! ## What visits enter -/

/-- The operations of the divisions that visits replaced. -/
def Visit.rewrites (visits : List Visit) : List DivOp := visits.filterMap rewritten?

@[simp] theorem Visit.rewrites_append (visits visits' : List Visit) :
    rewrites (visits ++ visits') = rewrites visits ++ rewrites visits' :=
  List.filterMap_append

theorem Visit.rewrites_cons (visit : Visit) (visits : List Visit) :
    rewrites (visit :: visits) = visit.rewritten?.toList ++ rewrites visits := by
  rw [rewrites, List.filterMap_cons]
  cases visit.rewritten? <;> rfl

theorem Visit.skips_of_rewritten? (h : visit.rewritten? = some op) :
    visit.skips = false := by
  unfold rewritten? replaces at h
  unfold skips
  cases hresult : visit.result with
  | error e => rfl
  | ok lowered =>
      cases lowered with
      | replaced new => rfl
      | alreadySafe | notRequired => simp [hresult, Lowered.isReplaced] at h

/-- What is in the statistics once visits were recorded. -/
theorem Statistics.foldl_record (visits : List Visit) (s : Statistics) :
    visits.foldl record s =
      { lowered := s.lowered + (Visit.rewrites visits).length
        skipped := s.skipped + visits.countP Visit.skips
        instantiated := s.instantiated + (Visit.rewrites visits).length
        created := s.created + 4 * (Visit.rewrites visits).length
        operations := s.operations.countAll ((Visit.rewrites visits).map DivOp.name) } := by
  induction visits generalizing s with
  | nil => rfl
  | cons visit visits ih =>
      rw [List.foldl_cons, ih, Visit.rewrites_cons, List.countP_cons, record]
      cases hop : visit.rewritten? with
      | some op =>
          simp [Statistics.recordLowered, Statistics.recordInstantiated, Tally.countAll,
            Visit.skips_of_rewritten? hop]
          omega
      | none =>
          cases visit.skips with
          | true =>
              simp [Statistics.recordSkipped]
              omega
          | false => simp

/-! ## What happens to the graphs -/

/-- How many nodes are live, and how many of them are unchecked divisions by each operation. -/
@[ext] structure Census where
  live : Nat
  unchecked : DivOp → Nat

def Graph.census (g : Graph) : Census where
  live := g.liveCount
  unchecked op := g.population fun kind ↦ decide (kind = .divRem op)

/-- The count of all graphs of a family together. -/
def Census.total {ι : Type*} [Fintype ι] (graphs : ι → Graph) : Census where
  live := ∑ i, (graphs i).census.live
  unchecked op := ∑ i, (graphs i).census.unchecked op

/-- Each replaced division is gone, and four nodes have come for it. -/
structure Census.Balanced (visits : List Visit) (before after : Census) : Prop where
  live : after.live = before.live + 3 * visits.countP Visit.replaces
  unchecked : ∀ op, after.unchecked op + (Visit.rewrites visits).count op = before.unchecked op
  length_rewrites : (Visit.rewrites visits).length = visits.countP Visit.replaces

namespace Census.Balanced

variable {visits visits' : List Visit} {before between after : Census}

theorem refl (c : Census) : Balanced [] c c := ⟨rfl, fun _ ↦ rfl, rfl⟩

theorem of_not_replaces (h : visit.replaces = false) (c : Census) : Balanced [visit] c c := by
  constructor <;> simp [Visit.rewrites, Visit.rewritten?, h]

theorem trans (hfirst : Balanced visits before between)
    (hsecond : Balanced visits' between after) : Balanced (visits ++ visits') before after where
  live := by
    rw [hsecond.live, hfirst.live, List.countP_append]
    omega
  unchecked op := by
    rw [← hfirst.unchecked, ← hsecond.unchecked, Visit.rewrites_append, List.count_append]
    omega
  length_rewrites := by
    rw [Visit.rewrites_append, List.length_append, List.countP_append, hfirst.length_rewrites,
      hsecond.length_rewrites]

end Census.Balanced

theorem Graph.balanced_guard (policy : Fallback.Policy) {key : Template.Key} {stamp : Stamp}
    {inputs : List NodeId} (hnode : g.node? id = some ⟨.divRem key.op, stamp, inputs⟩)
    (x y : NodeId) (hop : visit.rewritten? = some key.op) :
    Census.Balanced [visit] g.census (g.guard policy key id x y).census := by
  have hgrown : (g.append (Template.guarded policy key x y g.slots.size)).node? id =
      some ⟨.divRem key.op, stamp, inputs⟩ := by
    rw [node?_append_of_lt _ (lt_size_of_node? hnode), hnode]
  have hcount : ∀ p, (g.guard policy key id x y).population p +
      (if p (.divRem key.op) then 1 else 0) =
        g.population p + (Template.guarded policy key x y g.slots.size).countP (p ·.kind) := by
    intro p
    rw [guard, population_redirect hgrown, population_append]
  have hreplaces : visit.replaces = true := by
    by_contra hreplaces
    simp [Visit.rewritten?, hreplaces] at hop
  constructor
  · have hlive := hcount fun _ ↦ true
    simp only [Template.guarded_eq, List.countP_true, List.length_cons, List.length_nil,
      ↓reduceIte] at hlive
    simp only [census, liveCount_eq_population, List.countP_singleton, hreplaces, ↓reduceIte]
    omega
  · intro op
    have hunchecked := hcount fun kind ↦ decide (kind = .divRem op)
    simpa [Template.guarded_eq, census, Visit.rewrites, hop, List.count_singleton] using hunchecked
  · simp [Visit.rewrites, hop, hreplaces]

namespace Lowering

/-! ## What happens to one graph -/

theorem balanced_lowerWith (hclosed : w.graph.Closed) (l : Lowering) (id : NodeId)
    (fetched : Fetched) :
    Census.Balanced [w.graph.visit id (l.lowerWith id fetched w).1] w.graph.census
      (l.lowerWith id fetched w).2.2.graph.census := by
  cases hdecision : l.decision w.graph id with
  | refuse e =>
      rw [lowerWith_of_refuse hdecision]
      exact .of_not_replaces rfl _
  | alreadySafe =>
      rw [lowerWith_of_alreadySafe hdecision]
      exact .of_not_replaces rfl _
  | notRequired =>
      rw [lowerWith_of_notRequired hdecision]
      exact .of_not_replaces rfl _
  | rewrite key x y =>
      obtain ⟨-, -, stamp, -, hnode⟩ := decision_eq_rewrite_iff.mp hdecision
      rw [lowerWith_of_closed hclosed hdecision]
      exact w.graph.balanced_guard l.policy hnode x y (visit_of_rewrite hdecision _)

/-- Where every visit is balanced, so are visits in order. -/
theorem balanced_lowerInTurn (hclosed : w.graph.Closed) (l : Lowering)
    (renew : Template.Cache → Template.Cache) (ids : List NodeId) :
    Census.Balanced (l.lowerInTurn renew ids w).1 w.graph.census
      (l.lowerInTurn renew ids w).2.graph.census := by
  induction ids generalizing w with
  | nil => exact .refl _
  | cons id ids ih =>
      have hstep := balanced_lowerWith (w := { w with cache := renew w.cache }) hclosed l id []
      have hnext := hclosed.call l (.lower id) w.session (renew w.cache)
      rcases hlower : l.lowerWith id [] { w with cache := renew w.cache } with
        ⟨_ | lowered, fetched', w'⟩
      all_goals simp only [hlower, Call.after, lower] at hstep hnext
      · rw [lowerInTurn_cons_of_error ids hlower]
        exact hstep
      · rw [lowerInTurn_cons_of_ok ids hlower]
        exact hstep.trans (ih hnext)

/-! ## Calls -/

/-- The nodes that a call is about. -/
def Call.ids (g : Graph) : Call → List NodeId
  | .lower id => [id]
  | .run => worklist g

def Call.visits (l : Lowering) (w : Workspace) (call : Call) : List Visit :=
  (l.lowerInTurn (fun cache ↦ cache) (call.ids w.graph) w).1

theorem Call.after_eq_lowerInTurn (l : Lowering) (w : Workspace) (call : Call) :
    (call.after l w).graph = (l.lowerInTurn (fun cache ↦ cache) (call.ids w.graph) w).2.graph ∧
      (call.after l w).session.statistics =
        (call.visits l w).foldl Statistics.record w.session.statistics := by
  cases call with
  | lower id =>
      rw [after_lower]
      exact (l.lowerAll_eq_lowerInTurn (fun cache ↦ cache) [id] 0 [] rfl).2
  | run =>
      let entered : Workspace := { w with session := w.session.enter w.graph.name }
      rw [after_run]
      exact (l.lowerAll_eq_lowerInTurn (fun cache ↦ cache) (worklist w.graph) 0 []
        (u := w) (w := entered) rfl).2

theorem balanced_call (hclosed : w.graph.Closed) (l : Lowering) (call : Call) :
    Census.Balanced (call.visits l w) w.graph.census (call.after l w).graph.census := by
  rw [(call.after_eq_lowerInTurn l w).1]
  exact balanced_lowerInTurn hclosed l _ _

end Lowering

/-! ## Sequences of calls in one session -/

/-- A call on one of several graphs, with a configuration and a cache for this call. -/
structure Job (ι : Type*) where
  lowering : Lowering
  cache : Template.Cache := {}
  unit : ι
  call : Lowering.Call

namespace Job

variable {ι : Type*} [DecidableEq ι] [Fintype ι]

def workspace (job : Job ι) (graphs : ι → Graph) (session : Session) : Workspace where
  graph := graphs job.unit
  session := session
  cache := job.cache

def visits (job : Job ι) (graphs : ι → Graph) (session : Session) : List Visit :=
  job.call.visits job.lowering (job.workspace graphs session)

def after (job : Job ι) (graphs : ι → Graph) (session : Session) : Workspace :=
  job.call.after job.lowering (job.workspace graphs session)

/-- Makes calls one after the other, and collects their visits.  Each works on its own graph, all on
the one session. -/
def perform : List (Job ι) → (ι → Graph) → Session → List Visit × (ι → Graph) × Session
  | [], graphs, session => ([], graphs, session)
  | job :: jobs, graphs, session =>
    let w := job.after graphs session
    let (visits, rest) := perform jobs (Function.update graphs job.unit w.graph) w.session
    (job.visits graphs session ++ visits, rest)

/-- A change of one graph is a change of the family by as much. -/
theorem sum_update (graphs : ι → Graph) (unit : ι) (g : Graph) (f : Graph → Nat) :
    ∑ i, f (Function.update graphs unit g i) + f (graphs unit) = ∑ i, f (graphs i) + f g := by
  have hrest : ∑ i ∈ Finset.univ.erase unit, f (Function.update graphs unit g i) =
      ∑ i ∈ Finset.univ.erase unit, f (graphs i) := by
    apply Finset.sum_congr rfl
    intro i hi
    rw [Function.update_of_ne (Finset.ne_of_mem_erase hi)]
  rw [← Finset.add_sum_erase _ _ (Finset.mem_univ unit), hrest, Function.update_self,
    ← Finset.add_sum_erase _ (fun i ↦ f (graphs i)) (Finset.mem_univ unit)]
  omega

theorem balanced_update {visits : List Visit} {graphs : ι → Graph} {unit : ι} {g : Graph}
    (h : Census.Balanced visits (graphs unit).census g.census) :
    Census.Balanced visits (.total graphs) (.total (Function.update graphs unit g)) where
  live := by
    have hsum := sum_update graphs unit g fun g ↦ g.census.live
    have hlive := h.live
    simp only [Census.total]
    omega
  unchecked op := by
    have hsum := sum_update graphs unit g fun g ↦ g.census.unchecked op
    have hunchecked := h.unchecked op
    simp only [Census.total]
    omega
  length_rewrites := h.length_rewrites

theorem perform_balanced {graphs : ι → Graph} (hclosed : ∀ i, (graphs i).Closed)
    (jobs : List (Job ι)) (session : Session) :
    let done := perform jobs graphs session
    Census.Balanced done.1 (.total graphs) (.total done.2.1) ∧
      done.2.2.statistics = done.1.foldl Statistics.record session.statistics := by
  induction jobs generalizing graphs session with
  | nil => exact ⟨.refl _, rfl⟩
  | cons job jobs ih =>
      have hstep : Census.Balanced (job.visits graphs session) (graphs job.unit).census
          (job.after graphs session).graph.census :=
        Lowering.balanced_call (w := job.workspace graphs session) (hclosed job.unit) _ _
      have hrecord : (job.after graphs session).session.statistics =
          (job.visits graphs session).foldl Statistics.record session.statistics :=
        (job.call.after_eq_lowerInTurn job.lowering (job.workspace graphs session)).2
      have hnext : ∀ i,
          (Function.update graphs job.unit (job.after graphs session).graph i).Closed := by
        intro i
        by_cases hi : i = job.unit
        · subst hi
          rw [Function.update_self]
          exact (hclosed job.unit).call job.lowering job.call session job.cache
        · rw [Function.update_of_ne hi]
          exact hclosed i
      obtain ⟨hbalanced, hstatistics⟩ := ih hnext (job.after graphs session).session
      refine ⟨(balanced_update hstep).trans hbalanced, ?_⟩
      rw [hrecord] at hstatistics
      simpa only [perform, List.foldl_append] using hstatistics

end Job

/-- What the statistics of a session say about the visits and the graphs of a family. -/
structure Statistics.Account {ι : Type*} [Fintype ι] (s : Statistics) (visits : List Visit)
    (before after : ι → Graph) : Prop where
  lowered : s.lowered = visits.countP Visit.replaces
  instantiated : s.instantiated = s.lowered
  created : s.created = 4 * s.lowered
  skipped : s.skipped = visits.countP Visit.skips
  operations : ∀ name n, (name, n) ∈ s.operations.entries ↔
    ∃ op ∈ Visit.rewrites visits, op.name = name ∧ n = (Visit.rewrites visits).count op
  operations_nodup : (s.operations.entries.map Prod.fst).Nodup
  operations_sum : (s.operations.entries.map Prod.snd).sum = s.lowered
  live : ∑ i, (after i).liveCount = ∑ i, (before i).liveCount + 3 * s.lowered
  unchecked : ∀ op, (Census.total after).unchecked op + (Visit.rewrites visits).count op =
    (Census.total before).unchecked op

theorem DivOp.name_injective : Function.Injective DivOp.name := by
  intro a b h
  cases a <;> cases b <;> first | rfl | exact absurd h (by decide)

theorem Statistics.account_of_balanced {ι : Type*} [Fintype ι] {before after : ι → Graph}
    {visits : List Visit} (h : Census.Balanced visits (.total before) (.total after)) :
    (visits.foldl record {}).Account visits before after := by
  have hlength : 0 + (Visit.rewrites visits).length = visits.countP Visit.replaces := by
    rw [Nat.zero_add, h.length_rewrites]
  have hcount : ∀ op : DivOp,
      ((Visit.rewrites visits).map DivOp.name).count op.name = (Visit.rewrites visits).count op :=
    List.count_map_of_injective _ _ DivOp.name_injective
  rw [foldl_record]
  refine ⟨hlength, rfl, ?_, Nat.zero_add _, ?_, Tally.nodup_countAll _, ?_, ?_, h.unchecked⟩
  · simp only [Nat.zero_add]
  · intro name n
    rw [Tally.mem_countAll, List.mem_map]
    constructor
    · rintro ⟨⟨op, hop, rfl⟩, rfl⟩
      exact ⟨op, hop, rfl, hcount op⟩
    · rintro ⟨op, hop, rfl, rfl⟩
      exact ⟨⟨op, hop, rfl⟩, (hcount op).symm⟩
  · simp only [Tally.sum_countAll, List.length_map]
    rfl
  · simp only [hlength]
    exact h.live

/-- After any calls on graphs without dead inputs, failed ones included, the statistics of a new
session agree with the visits that were made and with the nodes that the graphs have now. -/
theorem Job.perform_account {ι : Type*} [DecidableEq ι] [Fintype ι] {graphs : ι → Graph}
    (hclosed : ∀ i, (graphs i).Closed) (jobs : List (Job ι)) :
    let done := perform jobs graphs {}
    done.2.2.statistics.Account done.1 graphs done.2.1 := by
  intro done
  obtain ⟨hbalanced, hstatistics⟩ := perform_balanced hclosed jobs {}
  exact hstatistics ▸ Statistics.account_of_balanced hbalanced

/-- A word and an octet, each divided by itself.  Only the first division has a width that can be
lowered. -/
def Graph.uneven : Graph where
  name := "uneven"
  slots := #[some ⟨.parameter 0, .anyInt 32, []⟩, some ⟨.parameter 1, .anyInt 8, []⟩,
    some ⟨.divRem .urem, .anyInt 32, [0, 0]⟩, some ⟨.divRem .udiv, .anyInt 8, [1, 1]⟩]

theorem Job.two_units_account :
    let graphs : Bool → Graph := fun unit ↦ if unit then .nested else .uneven
    let jobs : List (Job Bool) := [
      { lowering := { target := .aarch64 }, unit := false, call := .run },
      { lowering := { target := .x86_64 }, unit := true, call := .lower 2 },
      { lowering := { target := .x86_64, force := true }, unit := true, call := .run },
      { lowering := { target := .aarch64 }, unit := true, call := .lower 8 }]
    let done := perform jobs graphs {}
    (∀ i, (graphs i).Closed) ∧
      done.2.2.statistics.Account done.1 graphs done.2.1 ∧
      done.2.2.statistics =
        { lowered := 3, skipped := 2, instantiated := 3, created := 12,
          operations := ⟨[("urem", 1), ("sdiv", 2)]⟩ } := by
  intro graphs jobs done
  have hclosed : ∀ i, (graphs i).Closed := by decide
  exact ⟨hclosed, perform_account hclosed jobs, by decide +kernel⟩

end DivGuard
