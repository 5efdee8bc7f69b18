import DivGuard.Proofs.Graph.Lookup
import Mathlib.Data.Finset.Card
import Mathlib.Data.Finset.Range
import Mathlib.Logic.Relation
import Mathlib.Tactic.ByContra

/-!
# Which nodes a node depends on

A live node uses its inputs.  A graph is closed if only live nodes are used, and acyclic if no node
depends on itself.  A finite graph is acyclic just if its nodes can be ranked so that inputs rank
below their users; the ranks then need not exceed the number of slots.
-/

namespace DivGuard.Graph

variable {g : Graph}

def Uses (g : Graph) (user input : NodeId) : Prop :=
  ∃ node, g.node? user = some node ∧ input ∈ node.inputs

def Closed (g : Graph) : Prop :=
  ∀ user input, g.Uses user input → g.contains input = true

def Acyclic (g : Graph) : Prop :=
  ∀ id, ¬Relation.TransGen g.Uses id id

def Reaches (g : Graph) : NodeId → NodeId → Prop :=
  Relation.ReflTransGen g.Uses

def Ranking (g : Graph) (rank : NodeId → Nat) : Prop :=
  ∀ user input, g.Uses user input → rank input < rank user

/-- Every node is younger than its inputs, as in a graph that was never rewritten. -/
def Ordered (g : Graph) : Prop := g.Ranking id

theorem forall_uses_iff {p : NodeId → NodeId → Prop} :
    (∀ user input, g.Uses user input → p user input) ↔
      ∀ user ∈ g.nodeIds, ∀ node ∈ g.node? user, ∀ input ∈ node.inputs, p user input := by
  constructor
  · intro h user _ node hnode input hinput
    exact h user input ⟨node, hnode, hinput⟩
  · rintro h user input ⟨node, hnode, hinput⟩
    exact h user (mem_nodeIds.mpr (contains_of_node? hnode)) node hnode input hinput

instance (g : Graph) : Decidable g.Closed :=
  decidable_of_iff _ (forall_uses_iff (p := fun _ input ↦ g.contains input = true)).symm

instance (g : Graph) (rank : NodeId → Nat) : Decidable (g.Ranking rank) :=
  decidable_of_iff _ (forall_uses_iff (p := fun user input ↦ rank input < rank user)).symm

instance (g : Graph) : Decidable g.Ordered := inferInstanceAs (Decidable (g.Ranking id))

theorem contains_of_uses {user input : NodeId} (h : g.Uses user input) :
    g.contains user = true := by
  obtain ⟨node, hnode, -⟩ := h
  exact contains_of_node? hnode

theorem uses_push_cases {node : Node} {user input : NodeId} (huse : (g.push node).Uses user input) :
    (user = g.slots.size ∧ input ∈ node.inputs) ∨ g.Uses user input := by
  obtain ⟨found, hfound, hinput⟩ := huse
  rw [node?_push] at hfound
  split at hfound
  · next huser =>
    cases hfound
    exact .inl ⟨huser, hinput⟩
  · exact .inr ⟨found, hfound, hinput⟩

/-- After a redirection a node uses the new node where it used the old one, and all else it used. -/
theorem uses_redirect_iff {old new user input : NodeId} :
    (g.redirect old new).Uses user input ↔
      user ≠ old ∧ (input = new ∧ g.Uses user old ∨ input ≠ old ∧ g.Uses user input) := by
  constructor
  · rintro ⟨node, hnode, hinput⟩
    rw [node?_redirect] at hnode
    split at hnode
    · cases hnode
    · next hne =>
      obtain ⟨found, hfound, rfl⟩ := Option.map_eq_some_iff.mp hnode
      obtain ⟨before, hbefore, rfl⟩ := List.mem_map.mp hinput
      refine ⟨hne, ?_⟩
      split
      · next hold => exact .inl ⟨rfl, found, hfound, hold ▸ hbefore⟩
      · next hold => exact .inr ⟨hold, found, hfound, hbefore⟩
  · rintro ⟨hne, huse⟩
    have hnode : ∀ node, g.node? user = some node →
        (g.redirect old new).node? user = some (node.redirect old new) := by
      intro node hnode
      rw [node?_redirect, if_neg hne, hnode]
      rfl
    rcases huse with ⟨rfl, node, hfound, hinput⟩ | ⟨hold, node, hfound, hinput⟩
    · exact ⟨_, hnode node hfound, List.mem_map.mpr ⟨old, hinput, if_pos rfl⟩⟩
    · exact ⟨_, hnode node hfound, List.mem_map.mpr ⟨input, hinput, if_neg hold⟩⟩

theorem Closed.push {node : Node} (hclosed : g.Closed)
    (hlive : ∀ input ∈ node.inputs, g.contains input = true) : (g.push node).Closed := by
  intro user input huse
  have hold : g.contains input = true := by
    rcases uses_push_cases huse with ⟨-, hinput⟩ | hold
    · exact hlive input hinput
    · exact hclosed user input hold
  simp [contains_push, hold]

theorem mem_usages {user id : NodeId} : user ∈ g.usages id ↔ g.Uses user id := by
  rw [usages, mem_filter_nodeIds]
  simp only [List.contains_iff_mem, Uses]

theorem closed_iff_usages : g.Closed ↔ ∀ id, g.contains id = false → g.usages id = [] := by
  constructor
  · intro hclosed id hdead
    rw [List.eq_nil_iff_forall_not_mem]
    intro user huser
    have hlive := hclosed user id (mem_usages.mp huser)
    simp [hdead] at hlive
  · intro hnone user input huse
    by_contra hdead
    have huser : user ∈ g.usages input := mem_usages.mpr huse
    simp [hnone input (by simpa using hdead)] at huser

theorem Ranking.lt_of_transGen {rank : NodeId → Nat} (hrank : g.Ranking rank) {user input : NodeId}
    (h : Relation.TransGen g.Uses user input) : rank input < rank user := by
  induction h with
  | single huse => exact hrank _ _ huse
  | tail _ huse ih => exact (hrank _ _ huse).trans ih

theorem Ranking.le_of_reaches {rank : NodeId → Nat} (hrank : g.Ranking rank) {user input : NodeId}
    (h : g.Reaches user input) : rank input ≤ rank user := by
  rcases Relation.reflTransGen_iff_eq_or_transGen.mp h with rfl | hbelow
  · exact Nat.le_refl _
  · exact (hrank.lt_of_transGen hbelow).le

theorem Ranking.acyclic {rank : NodeId → Nat} (hrank : g.Ranking rank) : g.Acyclic :=
  fun _ hcycle ↦ Nat.lt_irrefl _ (hrank.lt_of_transGen hcycle)

open Classical in
/-- The live nodes among a node and its transitive inputs. -/
noncomputable def support (g : Graph) (id : NodeId) : Finset NodeId :=
  (Finset.range g.slots.size).filter fun m ↦ g.contains m = true ∧ g.Reaches id m

theorem mem_support {id m : NodeId} :
    m ∈ g.support id ↔ g.contains m = true ∧ g.Reaches id m := by
  simp only [support, Finset.mem_filter, Finset.mem_range, and_iff_right_iff_imp]
  exact fun h ↦ lt_size_of_contains h.1

/-- The other graph has the same nodes among the first one and all that it depends on. -/
def SameBelow (g h : Graph) (id : NodeId) : Prop :=
  ∀ m, g.Reaches id m → h.node? m = g.node? m

theorem SameBelow.refl (g : Graph) (id : NodeId) : g.SameBelow g id := fun _ _ ↦ rfl

theorem SameBelow.of_uses {h : Graph} {user input : NodeId} (hsame : g.SameBelow h user)
    (huse : g.Uses user input) : g.SameBelow h input :=
  fun m hreach ↦ hsame m (.head huse hreach)

theorem SameBelow.card_support_le {h : Graph} {id : NodeId} (hsame : g.SameBelow h id) :
    (g.support id).card ≤ h.slots.size := by
  have hsubset : g.support id ⊆ Finset.range h.slots.size := by
    intro m hm
    obtain ⟨hlive, hreach⟩ := mem_support.mp hm
    obtain ⟨node, hnode⟩ := contains_iff.mp hlive
    exact Finset.mem_range.mpr (lt_size_of_node? ((hsame m hreach).trans hnode))
  calc
    (g.support id).card ≤ (Finset.range h.slots.size).card := Finset.card_le_card hsubset
    _ = h.slots.size := Finset.card_range _

/-- The user itself is in its own support, but not in that of an input. -/
theorem Acyclic.ranking_card_support (h : g.Acyclic) : g.Ranking fun id ↦ (g.support id).card := by
  intro user input huse
  refine Finset.card_lt_card ⟨fun m hm ↦ ?_, fun hsubset ↦ ?_⟩
  · obtain ⟨hlive, hreach⟩ := mem_support.mp hm
    exact mem_support.mpr ⟨hlive, .head huse hreach⟩
  · have huser : user ∈ g.support user :=
      mem_support.mpr ⟨contains_of_uses huse, .refl⟩
    have hback : g.Reaches input user := (mem_support.mp (hsubset huser)).2
    exact h user (.head' huse hback)

theorem Acyclic.exists_ranking (h : g.Acyclic) :
    ∃ rank : NodeId → Nat, g.Ranking rank ∧ ∀ id, rank id ≤ g.slots.size :=
  ⟨_, h.ranking_card_support, fun id ↦ (SameBelow.refl g id).card_support_le⟩

/-- Induction along the inputs: what holds of a node whenever it holds of all its inputs holds of
every node. -/
theorem Acyclic.induction (h : g.Acyclic) {p : NodeId → Prop}
    (step : ∀ id, (∀ input, g.Uses id input → p input) → p id) (id : NodeId) : p id := by
  obtain ⟨rank, hrank, -⟩ := h.exists_ranking
  induction hr : rank id using Nat.strong_induction_on generalizing id with
  | _ r ih =>
      refine step id fun input huse ↦ ih (rank input) ?_ input rfl
      exact hr ▸ hrank id input huse

end DivGuard.Graph
