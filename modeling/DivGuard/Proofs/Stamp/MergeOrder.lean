import DivGuard.Proofs.Stamp.FactsOrder
import DivGuard.Proofs.Stamp.LeastMerge
import Mathlib.Data.Set.List

/-!
# The order in which stamps are merged

Where many paths join, their stamps are merged one after the other.  Void stamps and ranges merge to
the same whatever the order, references as their facts do.
-/

namespace DivGuard

namespace IntRange

variable {r s : IntRange} {rs ss : List IntRange}

theorem foldl_hull_bits (r : IntRange) (rs : List IntRange) : (rs.foldl hull r).bits = r.bits :=
  List.foldlRecOn rs hull (motive := fun s ↦ s.bits = r.bits) rfl
    fun s hs t _ ↦ (hs : (s.hull t).bits = r.bits)

theorem foldl_hull_eq (hbits : s.bits = r.bits) (hsame : ∀ t, t ∈ s :: ss ↔ t ∈ r :: rs) :
    ss.foldl hull s = rs.foldl hull r := by
  have hlub : ∀ x y z : IntRange, (x.hull y).Within z ↔ x.Within z ∧ y.Within z :=
    fun _ _ _ ↦ hull_within_iff
  apply Within.antisymm
  · exact foldl_lub_mono hlub .refl fun t ht ↦ (hsame t).mp ht
  · exact foldl_lub_mono hlub .refl fun t ht ↦ (hsame t).mpr ht
  · rw [foldl_hull_bits, foldl_hull_bits, hbits]

end IntRange

namespace Stamp

variable {a b : Stamp} {as bs : List Stamp}

/-- The stamp of an edge where many paths join. -/
def mergeAll (a : Stamp) (as : List Stamp) : Except UnitError Stamp := as.foldlM merge a

def facts? : Stamp → Option RefFacts
  | .void => none
  | .int _ => none
  | .ref _ facts => some facts

def TiedNulls (stamps : List Stamp) : Prop := RefFacts.TiedNulls (stamps.filterMap facts?)

def Ambiguous (stamps : List Stamp) : Prop := RefFacts.Ambiguous (stamps.filterMap facts?)

instance (stamps : List Stamp) : Decidable (TiedNulls stamps) :=
  inferInstanceAs (Decidable (RefFacts.TiedNulls _))

instance (stamps : List Stamp) : Decidable (Ambiguous stamps) :=
  inferInstanceAs (Decidable (RefFacts.Ambiguous _))

/-- Equal, or references of one layout with facts that agree. -/
inductive Agrees : Stamp → Stamp → Prop
  | same (a : Stamp) : Agrees a a
  | ref (layout : RefLayout) {f g : RefFacts} : f.Agrees g → Agrees (.ref layout f) (.ref layout g)

theorem Agrees.admits_iff (h : a.Agrees b) (v : Value) : a.Admits v ↔ b.Admits v := by
  cases h with
  | same => exact Iff.rfl
  | ref layout hfacts => exact RefFacts.agrees_iff.mp hfacts v

theorem mergeAll_void (h : ∀ b ∈ as, b = .void) : mergeAll .void as = .ok .void := by
  induction as with
  | nil => rfl
  | cons b as ih =>
    obtain rfl := h b List.mem_cons_self
    exact ih fun b hb ↦ h b (List.mem_cons_of_mem _ hb)

theorem mergeAll_int (r : IntRange) (rs : List IntRange) (h : ∀ s ∈ rs, s.bits = r.bits) :
    mergeAll (.int r) (rs.map .int) = .ok (.int (rs.foldl IntRange.hull r)) := by
  induction rs generalizing r with
  | nil => rfl
  | cons s rs ih =>
    have hs : r.bits = s.bits := (h s List.mem_cons_self).symm
    have hrs : ∀ t ∈ rs, t.bits = (r.hull s).bits := fun t ht ↦ h t (List.mem_cons_of_mem _ ht)
    rw [mergeAll, List.map_cons, List.foldlM_cons, merge_int hs]
    exact ih (r.hull s) hrs

theorem mergeAll_ref (layout : RefLayout) (f : RefFacts) (fs : List RefFacts) :
    mergeAll (.ref layout f) (fs.map (.ref layout)) =
      .ok (.ref layout (fs.foldl RefFacts.merge f)) := by
  induction fs generalizing f with
  | nil => rfl
  | cons g fs ih =>
    rw [mergeAll, List.map_cons, List.foldlM_cons, merge_ref]
    exact ih (f.merge g)

theorem Compatible.eq_void (h : a.Compatible .void) : a = .void := by
  cases a <;> simp_all [Compatible, representation]

theorem Compatible.exists_int {r : IntRange} (h : a.Compatible (.int r)) :
    ∃ s : IntRange, s.bits = r.bits ∧ .int s = a := by
  cases a <;> simp_all [Compatible, representation]

theorem Compatible.exists_ref {layout : RefLayout} {f : RefFacts}
    (h : a.Compatible (.ref layout f)) : ∃ g, .ref layout g = a := by
  cases a <;> simp_all [Compatible, representation]

theorem exists_map_int {r : IntRange} (h : ∀ b ∈ as, b.Compatible (.int r)) :
    ∃ rs : List IntRange, (∀ s ∈ rs, s.bits = r.bits) ∧ rs.map .int = as := by
  have hrange : as ∈ Set.range (List.map Stamp.int) := by
    rw [Set.range_list_map]
    intro b hb
    obtain ⟨s, -, hs⟩ := (h b hb).exists_int
    exact ⟨s, hs⟩
  obtain ⟨rs, rfl⟩ := hrange
  exact ⟨rs, fun s hs ↦ Representation.int.inj (h _ (List.mem_map_of_mem hs)), rfl⟩

theorem exists_map_ref {layout : RefLayout} {f : RefFacts}
    (h : ∀ b ∈ as, b.Compatible (.ref layout f)) :
    ∃ fs : List RefFacts, fs.map (.ref layout) = as := by
  have hrange : as ∈ Set.range (List.map (Stamp.ref layout)) := by
    rw [Set.range_list_map]
    exact fun b hb ↦ (h b hb).exists_ref
  exact hrange

theorem ambiguous_map_ref (layout : RefLayout) (fs : List RefFacts) :
    Ambiguous (fs.map (.ref layout)) ↔ RefFacts.Ambiguous fs := by
  simp [Ambiguous, List.filterMap_map, Function.comp_def, facts?]

theorem not_ambiguous_of_facts (h : ∀ b ∈ as, b.facts? = none) : ¬Ambiguous as := by
  rw [Ambiguous, List.filterMap_eq_nil_iff.mpr h]
  decide

theorem mergeAll_cases (h : ∀ c ∈ a :: as, c.Compatible a)
    (hsame : ∀ c, c ∈ b :: bs ↔ c ∈ a :: as) :
    (∃ m, mergeAll a as = .ok m ∧ mergeAll b bs = .ok m ∧ ¬Ambiguous (a :: as)) ∨
      ∃ layout f fs g gs, .ref layout f = a ∧ fs.map (.ref layout) = as ∧
        .ref layout g = b ∧ gs.map (.ref layout) = bs ∧ ∀ h, h ∈ g :: gs ↔ h ∈ f :: fs := by
  obtain ⟨-, has⟩ := List.forall_mem_cons.mp h
  obtain ⟨hb, hbs⟩ := List.forall_mem_cons.mp fun c hc ↦ h c ((hsame c).mp hc)
  cases a with
  | void =>
    have hvoid : ∀ c ∈ as, c = .void := fun c hc ↦ (has c hc).eq_void
    refine .inl ⟨.void, mergeAll_void hvoid, ?_, not_ambiguous_of_facts fun c hc ↦ ?_⟩
    · rw [hb.eq_void]
      exact mergeAll_void fun c hc ↦ (hbs c hc).eq_void
    · rw [(h c hc).eq_void, facts?]
  | int r =>
    obtain ⟨s, hbits, rfl⟩ := hb.exists_int
    obtain ⟨rs, hrs, rfl⟩ := exists_map_int has
    obtain ⟨ss, hss, rfl⟩ := exists_map_int hbs
    have hmembers : ∀ t, t ∈ s :: ss ↔ t ∈ r :: rs := by
      intro t
      have hinj : Function.Injective Stamp.int := fun _ _ ↦ Stamp.int.inj
      simpa only [← List.map_cons, List.mem_map_of_injective hinj] using hsame (.int t)
    refine .inl ⟨_, mergeAll_int r rs hrs, ?_, not_ambiguous_of_facts fun c hc ↦ ?_⟩
    · rw [mergeAll_int s ss fun t ht ↦ (hss t ht).trans hbits.symm,
        IntRange.foldl_hull_eq hbits hmembers]
    · obtain ⟨t, -, rfl⟩ := (h c hc).exists_int
      rw [facts?]
  | ref layout f =>
    obtain ⟨g, rfl⟩ := hb.exists_ref
    obtain ⟨fs, rfl⟩ := exists_map_ref has
    obtain ⟨gs, rfl⟩ := exists_map_ref hbs
    refine .inr ⟨layout, f, fs, g, gs, rfl, rfl, rfl, rfl, fun h ↦ ?_⟩
    have hinj : Function.Injective (Stamp.ref layout) := fun _ _ heq ↦ (Stamp.ref.inj heq).2
    simpa only [← List.map_cons, List.mem_map_of_injective hinj] using hsame (.ref layout h)

theorem mergeAll_agrees (h : ∀ c ∈ a :: as, c.Compatible a)
    (hsame : ∀ c, c ∈ b :: bs ↔ c ∈ a :: as) :
    ∃ m m', mergeAll a as = .ok m ∧ mergeAll b bs = .ok m' ∧ m.Agrees m' := by
  rcases mergeAll_cases h hsame with
    ⟨m, hm, hm', -⟩ | ⟨layout, f, fs, g, gs, rfl, rfl, rfl, rfl, hmembers⟩
  · exact ⟨m, m, hm, hm', .same m⟩
  · exact ⟨_, _, mergeAll_ref layout f fs, mergeAll_ref layout g gs,
      .ref layout (RefFacts.foldl_merge_agrees hmembers)⟩

theorem mergeAll_eq_iff (h : ∀ c ∈ a :: as, c.Compatible a) :
    (∀ b bs, (∀ c, c ∈ b :: bs ↔ c ∈ a :: as) → mergeAll b bs = mergeAll a as) ↔
      ¬Ambiguous (a :: as) := by
  constructor
  · intro heq
    rcases mergeAll_cases h fun _ ↦ Iff.rfl with
      ⟨-, -, -, hclear⟩ | ⟨layout, f, fs, -, -, rfl, rfl, -, -, -⟩
    · exact hclear
    · rw [← List.map_cons, ambiguous_map_ref, ← RefFacts.foldl_merge_eq_iff]
      intro g gs hmembers
      have hmerge := heq (.ref layout g) (gs.map (.ref layout)) fun c ↦ by
        simp only [← List.map_cons, List.mem_map, hmembers]
      rw [mergeAll_ref, mergeAll_ref] at hmerge
      exact (Stamp.ref.inj (Except.ok.inj hmerge)).2
  · intro hclear b bs hsame
    rcases mergeAll_cases h hsame with
      ⟨m, hm, hm', -⟩ | ⟨layout, f, fs, g, gs, rfl, rfl, rfl, rfl, hmembers⟩
    · exact hm'.trans hm.symm
    · rw [← List.map_cons, ambiguous_map_ref] at hclear
      rw [mergeAll_ref, mergeAll_ref, RefFacts.foldl_merge_eq hmembers hclear]

theorem merge_comm_iff (h : a.Compatible b) : a.merge b = b.merge a ↔ ¬TiedNulls [a, b] := by
  cases b with
  | void =>
    rw [h.eq_void]
    decide
  | int r =>
    obtain ⟨s, hbits, rfl⟩ := h.exists_int
    have hmembers : ∀ t, t ∈ [s, r] ↔ t ∈ [r, s] := by simp [or_comm]
    have hhull := IntRange.foldl_hull_eq hbits hmembers
    refine iff_of_true ?_ (by simp [TiedNulls, facts?, RefFacts.TiedNulls])
    rw [merge_int hbits, merge_int hbits.symm]
    exact congrArg (Except.ok ∘ Stamp.int) hhull
  | ref layout g =>
    obtain ⟨f, rfl⟩ := h.exists_ref
    rw [merge_ref, merge_ref, TiedNulls]
    simpa [facts?] using RefFacts.merge_comm_iff (f := f) (g := g)

/-- Lists with the same members merge to stamps that agree and admit the same values, and all of
them to the same stamp just if the members are not ambiguous.  Two of the members merge to the same
stamp in either order just if they are not tied. -/
theorem mergeAll_of_same_members (h : (a :: as).Pairwise Compatible) :
    (∀ b bs, (∀ c, c ∈ b :: bs ↔ c ∈ a :: as) →
      ∃ m m', mergeAll a as = .ok m ∧ mergeAll b bs = .ok m' ∧ m.Agrees m' ∧
        ∀ v, m.Admits v ↔ m'.Admits v) ∧
    ((∀ b bs, (∀ c, c ∈ b :: bs ↔ c ∈ a :: as) → mergeAll b bs = mergeAll a as) ↔
      ¬Ambiguous (a :: as)) ∧
    ∀ b ∈ a :: as, ∀ c ∈ a :: as, b.merge c = c.merge b ↔ ¬TiedNulls [b, c] := by
  have hfirst : ∀ c ∈ a :: as, c.Compatible a := by
    intro c hc
    rcases List.mem_cons.mp hc with rfl | hc
    · exact rfl
    · exact (List.rel_of_pairwise_cons h hc).symm
  refine ⟨fun b bs hsame ↦ ?_, mergeAll_eq_iff hfirst, fun b hb c hc ↦ ?_⟩
  · obtain ⟨m, m', hm, hm', hagrees⟩ := mergeAll_agrees hfirst hsame
    exact ⟨m, m', hm, hm', hagrees, hagrees.admits_iff⟩
  · exact merge_comm_iff ((hfirst b hb).trans (hfirst c hc).symm)

/-- A class and one below it, the latter exact, beside null. -/
theorem mergeAll_of_same_members_beside_null :
    let number := ClassType.root "Number"
    let integer := Stamp.ref .full (.exactly (.subclass "Integer" number))
    let any := Stamp.ref .full (.instanceOf number)
    let null := Stamp.ref .full .null
    [integer, null, any].Pairwise Compatible ∧
      mergeAll integer [null, any] = .ok (.ref .full { type? := some number }) ∧
      ∀ b bs, (∀ c, c ∈ b :: bs ↔ c ∈ [integer, null, any]) →
        mergeAll b bs = .ok (.ref .full { type? := some number }) := by
  intro number integer any null
  have hpairwise : [integer, null, any].Pairwise Compatible := by decide +kernel
  have hmerge : mergeAll integer [null, any] = .ok (.ref .full { type? := some number }) := by
    decide +kernel
  have hclear : ¬Ambiguous [integer, null, any] := by decide +kernel
  have hequal := (mergeAll_of_same_members hpairwise).2.1.mpr hclear
  exact ⟨hpairwise, hmerge, fun b bs hsame ↦ (hequal b bs hsame).trans hmerge⟩

/-- Two nulls, one of them with a class, merge to the right one.  An object that is exact without a
class is no longer so when merged again after null. -/
theorem mergeAll_depends_on_order :
    let null := Stamp.ref .full .null
    let typedNull := Stamp.ref .full { type? := some (.root "Number"), alwaysNull := true }
    let object := Stamp.ref .full { exact := true, nonNull := true }
    (null.Compatible typedNull ∧ null.merge typedNull ≠ typedNull.merge null) ∧
      object.Compatible null ∧ mergeAll object [null] ≠ mergeAll object [null, object] := by
  decide +kernel

end Stamp

end DivGuard
