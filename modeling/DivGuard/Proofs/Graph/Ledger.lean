import DivGuard.Proofs.Graph.Population

/-!
# Issued and deleted numbers

A ledger holds the numbers that insertions have issued and those of the nodes that were deleted.
Only two things ever happen to a graph: a node is added behind all others, or uses are redirected
and a node is deleted.  `Develops` says what is left of a graph after any number of either, in terms
of the ledger; it holds of each of the two, and it composes.
-/

namespace DivGuard

/-- The numbers that were issued and the numbers of nodes that were deleted, each in order. -/
structure Ledger where
  issued : List NodeId := []
  deleted : List NodeId := []
  deriving DecidableEq, Repr

namespace Ledger

instance : Append Ledger := ⟨fun a b ↦ ⟨a.issued ++ b.issued, a.deleted ++ b.deleted⟩⟩

@[simp] theorem issued_append (a b : Ledger) : (a ++ b).issued = a.issued ++ b.issued := rfl

@[simp] theorem deleted_append (a b : Ledger) : (a ++ b).deleted = a.deleted ++ b.deleted := rfl

/-- The entry for an insertion: the number that it returns, if it returns one. -/
def ofInserted : Except UnitError (NodeId × Graph) → Ledger
  | .error _ => {}
  | .ok (id, _) => { issued := [id] }

/-- The entry for a replacement of a node, which is deleted if nothing is refused. -/
def ofReplaced (old : NodeId) : Except UnitError Graph → Ledger
  | .error _ => {}
  | .ok _ => { deleted := [old] }

end Ledger

namespace Graph

variable {g h k : Graph} {a b : Ledger} {old id : NodeId}

/-- The first graph has become the second, with the entries of the ledger.  Numbers are issued
without gaps, and a number is live just if its node was live or was added, and was not deleted. -/
structure Develops (g : Graph) (book : Ledger) (h : Graph) : Prop where
  issued_eq : book.issued = List.range' g.slots.size book.issued.length
  size_eq : h.slots.size = g.slots.size + book.issued.length
  deleted_known : ∀ id ∈ book.deleted, g.contains id = true ∨ id ∈ book.issued
  deleted_nodup : book.deleted.Nodup
  live_iff : ∀ id, h.contains id = true ↔
    (g.contains id = true ∨ id ∈ book.issued) ∧ id ∉ book.deleted
  kept : ∀ id before after, g.node? id = some before → h.node? id = some after →
    after.kind = before.kind ∧ after.stamp = before.stamp
  liveCount_eq : h.liveCount + book.deleted.length = g.liveCount + book.issued.length

namespace Develops

theorem refl (g : Graph) : g.Develops {} g where
  issued_eq := rfl
  size_eq := rfl
  deleted_known := by simp
  deleted_nodup := List.nodup_nil
  live_iff := by simp
  kept := by
    intro id before after hbefore hafter
    obtain rfl := Option.some.inj (hbefore.symm.trans hafter)
    exact ⟨rfl, rfl⟩
  liveCount_eq := rfl

theorem mem_issued_iff (hgh : g.Develops a h) :
    id ∈ a.issued ↔ g.slots.size ≤ id ∧ id < h.slots.size := by
  rw [hgh.issued_eq, List.mem_range'_1, hgh.size_eq]

/-- What was live or issued has a number below the size afterwards. -/
theorem lt_size (hgh : g.Develops a h) (hid : g.contains id = true ∨ id ∈ a.issued) :
    id < h.slots.size := by
  rcases hid with hlive | hissued
  · have hlt : id < g.slots.size := lt_size_of_contains hlive
    exact Nat.lt_of_lt_of_le hlt (hgh.size_eq ▸ Nat.le_add_right _ _)
  · exact (hgh.mem_issued_iff.mp hissued).2

/-- Later numbers are other ones than all that came before. -/
theorem not_mem_issued (hgh : g.Develops a h) (hhk : h.Develops b k)
    (hid : g.contains id = true ∨ id ∈ a.issued) : id ∉ b.issued := by
  intro hlater
  have hlt : id < h.slots.size := hgh.lt_size hid
  have hle : h.slots.size ≤ id := (hhk.mem_issued_iff.mp hlater).1
  exact absurd hlt (Nat.not_lt.mpr hle)

theorem trans (hgh : g.Develops a h) (hhk : h.Develops b k) : g.Develops (a ++ b) k where
  issued_eq := by
    rw [Ledger.issued_append, List.length_append, ← List.range'_append_1, ← hgh.issued_eq,
      ← hgh.size_eq, ← hhk.issued_eq]
  size_eq := by
    rw [hhk.size_eq, hgh.size_eq, Ledger.issued_append, List.length_append, Nat.add_assoc]
  deleted_known := by
    intro id hid
    rw [Ledger.deleted_append, List.mem_append] at hid
    rw [Ledger.issued_append, List.mem_append, ← or_assoc]
    rcases hid with hfirst | hsecond
    · exact .inl (hgh.deleted_known id hfirst)
    · exact (hhk.deleted_known id hsecond).imp_left fun hlive ↦ ((hgh.live_iff id).mp hlive).1
  deleted_nodup := by
    refine List.nodup_append.mpr ⟨hgh.deleted_nodup, hhk.deleted_nodup, ?_⟩
    rintro id hfirst _ hsecond rfl
    rcases hhk.deleted_known id hsecond with hlive | hissued
    · exact ((hgh.live_iff id).mp hlive).2 hfirst
    · exact hgh.not_mem_issued hhk (hgh.deleted_known id hfirst) hissued
  live_iff := by
    intro id
    rw [hhk.live_iff, hgh.live_iff, Ledger.issued_append, Ledger.deleted_append, List.mem_append,
      List.mem_append, not_or, ← or_assoc, ← and_assoc, and_congr_left_iff]
    intro _
    constructor
    · rintro (⟨hbefore, hfirst⟩ | hissued)
      · exact ⟨.inl hbefore, hfirst⟩
      · exact ⟨.inr hissued, fun hfirst ↦
          hgh.not_mem_issued hhk (hgh.deleted_known id hfirst) hissued⟩
    · rintro ⟨hbefore | hissued, hfirst⟩
      · exact .inl ⟨hbefore, hfirst⟩
      · exact .inr hissued
  kept := by
    intro id before after hbefore hafter
    have hlive : h.contains id = true := by
      rcases ((hhk.live_iff id).mp (contains_of_node? hafter)).1 with hlive | hissued
      · exact hlive
      · exact absurd hissued (hgh.not_mem_issued hhk (.inl (contains_of_node? hbefore)))
    obtain ⟨between, hbetween⟩ := contains_iff.mp hlive
    obtain ⟨hkind, hstamp⟩ := hgh.kept id before between hbefore hbetween
    obtain ⟨hkind', hstamp'⟩ := hhk.kept id between after hbetween hafter
    exact ⟨hkind'.trans hkind, hstamp'.trans hstamp⟩
  liveCount_eq := by
    have hfirst := hgh.liveCount_eq
    have hsecond := hhk.liveCount_eq
    rw [Ledger.issued_append, Ledger.deleted_append, List.length_append, List.length_append]
    omega

/-- What was deleted is not live again after a further development. -/
theorem not_contains_of_deleted (hgh : g.Develops a h) (hhk : h.Develops b k)
    (hid : id ∈ a.deleted) : k.contains id = false := by
  rw [← Bool.not_eq_true]
  intro hlive
  rcases ((hhk.live_iff id).mp hlive).1 with hbetween | hissued
  · exact ((hgh.live_iff id).mp hbetween).2 hid
  · exact hgh.not_mem_issued hhk (hgh.deleted_known id hid) hissued

end Develops

/-! ## The two ways to develop -/

theorem develops_push (g : Graph) (node : Node) :
    g.Develops { issued := [g.slots.size] } (g.push node) where
  issued_eq := rfl
  size_eq := size_push g node
  deleted_known := by simp
  deleted_nodup := List.nodup_nil
  live_iff := by
    intro id
    simp [contains_push, or_comm]
  kept := by
    intro id before after hbefore hafter
    rw [node?_push, if_neg (Nat.ne_of_lt (lt_size_of_node? hbefore)), hbefore] at hafter
    obtain rfl := Option.some.inj hafter
    exact ⟨rfl, rfl⟩
  liveCount_eq := liveCount_push g node

theorem develops_redirect (hold : g.contains old = true) (new : NodeId) :
    g.Develops { deleted := [old] } (g.redirect old new) where
  issued_eq := rfl
  size_eq := size_redirect g old new
  deleted_known := by simpa using hold
  deleted_nodup := by simp
  live_iff := by
    intro id
    simp [contains_redirect, and_comm]
  kept := by
    intro id before after hbefore hafter
    rw [node?_redirect, hbefore] at hafter
    split at hafter
    · cases hafter
    · obtain rfl := Option.some.inj hafter
      exact ⟨rfl, rfl⟩
  liveCount_eq := liveCount_redirect hold new

end Graph

end DivGuard
