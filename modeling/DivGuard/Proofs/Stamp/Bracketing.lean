import DivGuard.Proofs.Stamp.MergeOrder

/-!
# Bracketing of merges

Where many paths join, their stamps may be merged two by two in any grouping that keeps their order.
Merging is associative as long as reference facts are exact only with a class, so the grouping does
not show.  Both ways to merge three facts give a least upper bound, so they agree; what is left to
compare is which of several nulls comes out and exactness without a class.
-/

namespace DivGuard

namespace RefFacts

variable {f g h : RefFacts}

/-- Exactness is about a class. -/
def ExactHasType (f : RefFacts) : Prop := f.exact = true → f.type? ≠ none

instance (f : RefFacts) : Decidable f.ExactHasType :=
  inferInstanceAs (Decidable (_ → _))

theorem ExactHasType.merge (hf : f.ExactHasType) (hg : g.ExactHasType) :
    (f.merge g).ExactHasType := by
  cases hfn : f.alwaysNull <;> cases hgn : g.alwaysNull
  · by_cases hne : f = g
    · rwa [hne, merge_self]
    · rw [merge_of_objects hfn hgn hne]
      intro hexact
      simp only [Bool.and_eq_true, Option.isSome_iff_ne_none] at hexact
      exact hexact.1.2
  · rw [merge_of_null_right hfn hgn]
    exact hf
  · rw [merge_of_null_left hfn hgn]
    exact hg
  · rw [merge_of_nulls hfn hgn]
    split
    · exact hf
    · exact hg

theorem merge_assoc_agrees (f g h : RefFacts) :
    ((f.merge g).merge h).Agrees (f.merge (g.merge h)) := by
  have hsame : ∀ k, ((f.merge g).merge h).Implies k ↔ (f.merge (g.merge h)).Implies k := by
    intro k
    simp only [merge_implies_iff, and_assoc]
  exact Implies.antisymm ((hsame _).mpr (.refl _)) ((hsame _).mp (.refl _))

theorem merge_assoc_of_nulls (hf : f.alwaysNull = true) (hg : g.alwaysNull = true)
    (hh : h.alwaysNull = true) : (f.merge g).merge h = f.merge (g.merge h) := by
  have hfg : (f.merge g).alwaysNull = true := by simp [hf, hg]
  have hgh : (g.merge h).alwaysNull = true := by simp [hg, hh]
  rw [merge_of_nulls hfg hh, merge_of_nulls hf hgh, merge_of_nulls hf hg, merge_of_nulls hg hh]
  -- The last one that is nullable comes out, or the last one if all are empty.
  cases hfn : f.nonNull <;> cases hgn : g.nonNull <;> cases hhn : h.nonNull <;>
    simp [hfn, hgn, hhn]

theorem merge_assoc (hf : f.ExactHasType) (hg : g.ExactHasType) (hh : h.ExactHasType) :
    (f.merge g).merge h = f.merge (g.merge h) := by
  by_cases hnulls : f.alwaysNull = true ∧ g.alwaysNull = true ∧ h.alwaysNull = true
  · exact merge_assoc_of_nulls hnulls.1 hnulls.2.1 hnulls.2.2
  · have hagrees := merge_assoc_agrees f g h
    have hobject : ((f.merge g).merge h).alwaysNull = false := by
      apply Bool.of_not_eq_true
      simpa [and_assoc] using hnulls
    have htype := hagrees.type? hobject
    have hexact : ((f.merge g).merge h).exact = (f.merge (g.merge h)).exact := by
      by_cases hnone : ((f.merge g).merge h).type? = none
      · have hleft := (hf.merge hg).merge hh
        have hright := hf.merge (hg.merge hh)
        rw [Bool.eq_false_iff.mpr fun hexact ↦ hleft hexact hnone,
          Bool.eq_false_iff.mpr fun hexact ↦ hright hexact (htype ▸ hnone)]
      · exact hagrees.exact hobject hnone
    exact RefFacts.ext htype hexact hagrees.nonNull hagrees.alwaysNull

end RefFacts

theorem IntRange.hull_assoc (r s t : IntRange) : (r.hull s).hull t = r.hull (s.hull t) := by
  have hsame : ∀ u, ((r.hull s).hull t).Within u ↔ (r.hull (s.hull t)).Within u := by
    intro u
    simp only [hull_within_iff, and_assoc]
  exact Within.antisymm ((hsame _).mpr (.refl _)) ((hsame _).mp (.refl _)) rfl

namespace Stamp

variable {a b c m n : Stamp} {as bs : List Stamp}

theorem compatible_equivalence : Equivalence Compatible where
  refl _ := rfl
  symm h := h.symm
  trans h h' := h.trans h'

/-- If it is the stamp of a reference, its facts are exact only with a class. -/
def ExactHasType : Stamp → Prop
  | .void => True
  | .int _ => True
  | .ref _ facts => facts.ExactHasType

instance : DecidablePred ExactHasType
  | .void | .int _ => .isTrue trivial
  | .ref _ facts => inferInstanceAs (Decidable facts.ExactHasType)

theorem exactHasType_ofConstant {k : Constant} {encoding? : Option Encoding}
    (h : ofConstant k encoding? = .ok a) : a.ExactHasType := by
  cases k with
  | int bits value =>
      obtain rfl := Except.ok.inj h
      trivial
  | null form | object address form =>
      simp only [ofConstant, ofConstant.ofReference] at h
      split at h
      · cases h
      · obtain rfl := Except.ok.inj h
        simp [ExactHasType, RefFacts.ExactHasType, RefFacts.null, RefFacts.object]

/-- Merging keeps the representation, and exactness with a class. -/
theorem exists_merge (h : a.Compatible b) :
    ∃ m, a.merge b = .ok m ∧ a.Compatible m ∧
      (a.ExactHasType → b.ExactHasType → m.ExactHasType) := by
  rcases compatible_cases h with
    ⟨rfl, rfl⟩ | ⟨r, s, rfl, rfl, hbits⟩ | ⟨layout, f, g, rfl, rfl⟩
  · exact ⟨.void, rfl, rfl, fun _ _ ↦ trivial⟩
  · exact ⟨_, merge_int hbits, rfl, fun _ _ ↦ trivial⟩
  · exact ⟨_, merge_ref layout f g, rfl, RefFacts.ExactHasType.merge⟩

/-- Stamps that merge, and do so in any grouping. -/
structure Joinable (a b : Stamp) : Prop where
  compatible : a.Compatible b
  left : a.ExactHasType
  right : b.ExactHasType

theorem Joinable.symm (h : Joinable a b) : Joinable b a :=
  ⟨compatible_equivalence.symm h.compatible, h.right, h.left⟩

theorem Joinable.trans (hab : Joinable a b) (hbc : Joinable b c) : Joinable a c :=
  ⟨compatible_equivalence.trans hab.compatible hbc.compatible, hab.left, hbc.right⟩

theorem Joinable.exists_merge (h : Joinable a b) : ∃ m, a.merge b = .ok m ∧ Joinable a m := by
  obtain ⟨m, hm, ham, hexact⟩ := Stamp.exists_merge h.compatible
  exact ⟨m, hm, ham, h.left, hexact h.left h.right⟩

theorem merge_assoc (hab : Joinable a b) (hbc : Joinable b c) (hm : a.merge b = .ok m)
    (hn : b.merge c = .ok n) : m.merge c = a.merge n := by
  have hcb : c.Compatible b := hbc.symm.compatible
  rcases compatible_cases hab.compatible with
    ⟨rfl, rfl⟩ | ⟨r, s, rfl, rfl, hrs⟩ | ⟨layout, f, g, rfl, rfl⟩
  · obtain rfl := Except.ok.inj hm
    obtain rfl := hcb.eq_void
    obtain rfl := Except.ok.inj hn
    rfl
  · obtain ⟨t, hts, rfl⟩ := hcb.exists_int
    obtain rfl := Except.ok.inj ((merge_int hrs).symm.trans hm)
    obtain rfl := Except.ok.inj ((merge_int hts.symm).symm.trans hn)
    have hrt : (r.hull s).bits = t.bits := hrs.trans hts.symm
    have hrs' : r.bits = (s.hull t).bits := hrs
    rw [merge_int hrt, merge_int hrs', IntRange.hull_assoc]
  · obtain ⟨h, rfl⟩ := hcb.exists_ref
    obtain rfl := Except.ok.inj ((merge_ref layout f g).symm.trans hm)
    obtain rfl := Except.ok.inj ((merge_ref layout g h).symm.trans hn)
    rw [merge_ref, merge_ref, RefFacts.merge_assoc hab.left hab.right hbc.right]

/-! ## Merging in order -/

theorem mergeAll_cons_of_merge (hm : a.merge b = .ok m) (bs : List Stamp) :
    mergeAll a (b :: bs) = mergeAll m bs := by
  rw [mergeAll, List.foldlM_cons, hm]
  rfl

theorem mergeAll_append_of_ok (hm : mergeAll a as = .ok m) (bs : List Stamp) :
    mergeAll a (as ++ bs) = mergeAll m bs := by
  rw [mergeAll, List.foldlM_append, ← mergeAll, hm]
  rfl

theorem exists_mergeAll (h : ∀ b ∈ a :: as, Joinable a b) :
    ∃ m, mergeAll a as = .ok m ∧ Joinable a m := by
  induction as generalizing a with
  | nil => exact ⟨a, rfl, h a List.mem_cons_self⟩
  | cons b as ih =>
      obtain ⟨m, hm, ham⟩ := (h b (by simp)).exists_merge
      have hrest : ∀ c ∈ m :: as, Joinable m c := by
        refine List.forall_mem_cons.mpr ⟨ham.symm.trans ham, fun c hc ↦ ?_⟩
        exact ham.symm.trans (h c (by simp [hc]))
      obtain ⟨n, hn, hmn⟩ := ih hrest
      exact ⟨n, (mergeAll_cons_of_merge hm as).trans hn, ham.trans hmn⟩

/-- The stamps behind a stamp may be merged with each other first. -/
theorem mergeAll_cons_eq_merge (h : ∀ c ∈ b :: bs, Joinable a c) (hn : mergeAll b bs = .ok n) :
    mergeAll a (b :: bs) = a.merge n := by
  induction bs generalizing b with
  | nil =>
      obtain rfl : b = n := Except.ok.inj hn
      obtain ⟨m, hm, -⟩ := (h b (by simp)).exists_merge
      rw [mergeAll_cons_of_merge hm, hm]
      rfl
  | cons c bs ih =>
      have hab : Joinable a b := h b (by simp)
      have hbc : Joinable b c := hab.symm.trans (h c (by simp))
      obtain ⟨m, hm, -⟩ := hab.exists_merge
      obtain ⟨k, hk, hbk⟩ := hbc.exists_merge
      have hak : Joinable a k := hab.trans hbk
      obtain ⟨p, hp, -⟩ := hak.exists_merge
      have hmc : m.merge c = .ok p := (merge_assoc hab hbc hm hk).trans hp
      have hrest : mergeAll k bs = .ok n := (mergeAll_cons_of_merge hk bs).symm.trans hn
      calc mergeAll a (b :: c :: bs)
        _ = mergeAll p bs := by
          rw [mergeAll_cons_of_merge hm, mergeAll_cons_of_merge hmc]
        _ = mergeAll a (k :: bs) := (mergeAll_cons_of_merge hp bs).symm
        _ = a.merge n := by
          refine ih (List.forall_mem_cons.mpr ⟨hak, fun d hd ↦ ?_⟩) hrest
          exact h d (by simp [hd])

/-! ## Groupings -/

/-- A way to group stamps that are merged two by two. -/
inductive Bracketing where
  | leaf (stamp : Stamp)
  | join (left right : Bracketing)

namespace Bracketing

/-- The stamps that are merged, in their order. -/
def leaves : Bracketing → List Stamp
  | .leaf stamp => [stamp]
  | .join left right => left.leaves ++ right.leaves

def merge : Bracketing → Except UnitError Stamp
  | .leaf stamp => .ok stamp
  | .join left right => do
    let m ← left.merge
    let n ← right.merge
    m.merge n

theorem exists_leaves (t : Bracketing) : ∃ a as, t.leaves = a :: as := by
  induction t with
  | leaf stamp => exact ⟨stamp, [], rfl⟩
  | join left right ihl _ =>
      obtain ⟨a, as, hleft⟩ := ihl
      exact ⟨a, as ++ right.leaves, by rw [leaves, hleft, List.cons_append]⟩

theorem merge_join {left right : Bracketing} (hm : left.merge = .ok m) (hn : right.merge = .ok n) :
    (join left right).merge = m.merge n := by
  rw [merge, hm, hn]
  rfl

/-- The grouping does not show in the result. -/
theorem merge_eq_mergeAll (t : Bracketing) (hleaves : t.leaves = a :: as)
    (h : ∀ b ∈ a :: as, Joinable a b) : t.merge = mergeAll a as := by
  induction t generalizing a as with
  | leaf stamp =>
      obtain ⟨rfl, rfl⟩ := List.cons_eq_cons.mp hleaves
      rfl
  | join left right ihl ihr =>
      obtain ⟨b, bs, hleft⟩ := left.exists_leaves
      obtain ⟨c, cs, hright⟩ := right.exists_leaves
      rw [leaves, hleft, hright, List.cons_append, List.cons_eq_cons] at hleaves
      obtain ⟨rfl, rfl⟩ := hleaves
      rw [← List.cons_append, List.forall_mem_append] at h
      obtain ⟨hl, hr⟩ := h
      have hbc : Joinable b c := hr c List.mem_cons_self
      have hr' : ∀ d ∈ c :: cs, Joinable c d := fun d hd ↦ hbc.symm.trans (hr d hd)
      obtain ⟨m, hm, hbm⟩ := exists_mergeAll hl
      obtain ⟨n, hn, -⟩ := exists_mergeAll hr'
      calc (join left right).merge
        _ = m.merge n := merge_join ((ihl hleft hl).trans hm) ((ihr hright hr').trans hn)
        _ = mergeAll m (c :: cs) :=
          (mergeAll_cons_eq_merge (fun d hd ↦ hbm.symm.trans (hr d hd)) hn).symm
        _ = mergeAll b (bs ++ c :: cs) := (mergeAll_append_of_ok hm (c :: cs)).symm

theorem compatible_of_leaves {left right : Bracketing} (hleft : ∀ s ∈ left.leaves, s.Compatible m)
    (hright : ∀ s ∈ right.leaves, s.Compatible n)
    (hcross : ∀ s ∈ left.leaves, ∀ s' ∈ right.leaves, s.Compatible s') : m.Compatible n := by
  obtain ⟨b, bs, hb⟩ := left.exists_leaves
  obtain ⟨c, cs, hc⟩ := right.exists_leaves
  have hbm : b.Compatible m := hleft b (by simp [hb])
  have hcn : c.Compatible n := hright c (by simp [hc])
  have hbc : b.Compatible c := hcross b (by simp [hb]) c (by simp [hc])
  exact (hbm.symm.trans hbc).trans hcn

/-- A grouping merges to a stamp of the representation of all its members, or else it ends in an
error and its members have not all one representation. -/
theorem merge_cases (t : Bracketing) :
    (∃ m, t.merge = .ok m ∧ ∀ s ∈ t.leaves, s.Compatible m) ∨
      (∃ b c, t.merge = .error (.incompatibleStamps b c)) ∧ ¬t.leaves.Pairwise Compatible := by
  induction t with
  | leaf stamp => exact .inl ⟨stamp, rfl, by simp [leaves, Compatible]⟩
  | join left right ihl ihr =>
      rw [leaves, List.pairwise_append]
      rcases ihl with ⟨m, hm, hleft⟩ | ⟨⟨b, c, herror⟩, hnot⟩
      · rcases ihr with ⟨n, hn, hright⟩ | ⟨⟨b, c, herror⟩, hnot⟩
        · rw [merge_join hm hn]
          by_cases hmn : m.Compatible n
          · obtain ⟨k, hk, hmk, -⟩ := exists_merge hmn
            have hnk : n.Compatible k := hmn.symm.trans hmk
            refine .inl ⟨k, hk, List.forall_mem_append.mpr ⟨fun s hs ↦ ?_, fun s hs ↦ ?_⟩⟩
            · exact (hleft s hs).trans hmk
            · exact (hright s hs).trans hnk
          · refine .inr ⟨⟨m, n, merge_of_not_compatible hmn⟩, fun hpairwise ↦ hmn ?_⟩
            exact compatible_of_leaves hleft hright hpairwise.2.2
        · refine .inr ⟨⟨b, c, ?_⟩, fun hpairwise ↦ hnot hpairwise.2.1⟩
          rw [merge, hm, herror]
          rfl
      · refine .inr ⟨⟨b, c, ?_⟩, fun hpairwise ↦ hnot hpairwise.1⟩
        rw [merge, herror]
        rfl

end Bracketing

theorem compatible_of_pairwise (h : (a :: as).Pairwise Compatible) :
    ∀ b ∈ a :: as, a.Compatible b :=
  List.forall_mem_cons.mpr ⟨rfl, fun _ hb ↦ List.rel_of_pairwise_cons h hb⟩

/-- All groupings of stamps of one representation merge to the same stamp, which has the
representation too; with stamps of several representations all groupings are refused.  The stamps of
constants, and facts that have a name, are exact only with a class. -/
theorem merge_in_any_grouping (hexact : ∀ s ∈ a :: as, s.ExactHasType) :
    ((a :: as).Pairwise Compatible →
      ∃ m, (∀ t : Bracketing, t.leaves = a :: as → t.merge = .ok m) ∧
        ∀ s ∈ a :: as, m.Compatible s) ∧
    (¬(a :: as).Pairwise Compatible → ∀ t : Bracketing, t.leaves = a :: as →
      ∃ b c, t.merge = .error (.incompatibleStamps b c)) ∧
    Equivalence Compatible ∧
    (∀ k encoding? s, ofConstant k encoding? = .ok s → s.ExactHasType) ∧
    ∀ layout type, ∀ f ∈ [.anything, .null, .instanceOf type, .exactly type],
      (ref layout f).ExactHasType := by
  refine ⟨fun hpairwise ↦ ?_, fun hnot t hleaves ↦ ?_, compatible_equivalence,
    fun _ _ _ ↦ exactHasType_ofConstant, fun layout type f hf ↦ ?_⟩
  · have hjoin : ∀ b ∈ a :: as, Joinable a b := fun b hb ↦
      ⟨compatible_of_pairwise hpairwise b hb, hexact a List.mem_cons_self, hexact b hb⟩
    obtain ⟨m, hm, ham⟩ := exists_mergeAll hjoin
    refine ⟨m, fun t hleaves ↦ (t.merge_eq_mergeAll hleaves hjoin).trans hm, fun s hs ↦ ?_⟩
    exact (ham.symm.trans (hjoin s hs)).compatible
  · rcases t.merge_cases with ⟨m, -, hcompatible⟩ | ⟨herror, -⟩
    · rw [hleaves] at hcompatible
      refine absurd (List.pairwise_of_forall_mem_list fun b hb c hc ↦ ?_) hnot
      exact (hcompatible b hb).trans (hcompatible c hc).symm
    · exact herror
  · simp only [List.mem_cons, List.not_mem_nil, or_false] at hf
    rcases hf with rfl | rfl | rfl | rfl <;>
      simp [ExactHasType, RefFacts.ExactHasType, RefFacts.anything, RefFacts.null,
        RefFacts.instanceOf, RefFacts.exactly]

/-- Siblings with null between them, and ranges of two widths. -/
theorem merge_siblings_in_any_grouping :
    let number := ClassType.root "Number"
    let integer := Stamp.ref .full (.exactly (.subclass "Integer" number))
    let long := Stamp.ref .full (.exactly (.subclass "Long" number))
    let null := Stamp.ref .full .null
    let octet := Stamp.anyInt 8
    let word := Stamp.anyInt 64
    (∀ s ∈ [integer, null, long], s.ExactHasType) ∧ [integer, null, long].Pairwise Compatible ∧
      (∀ t : Bracketing, t.leaves = [integer, null, long] →
        t.merge = .ok (.ref .full { type? := some number })) ∧
      ∀ t : Bracketing, t.leaves = [octet, word, octet] →
        ∃ b c, t.merge = .error (.incompatibleStamps b c) := by
  intro number integer long null octet word
  have hexact : ∀ s ∈ [integer, null, long], s.ExactHasType := by decide
  have hpairwise : [integer, null, long].Pairwise Compatible := by decide +kernel
  obtain ⟨m, hm, -⟩ := (merge_in_any_grouping hexact).1 hpairwise
  have hleft : (Bracketing.join (.join (.leaf integer) (.leaf null)) (.leaf long)).merge =
      .ok (.ref .full { type? := some number }) := by decide +kernel
  obtain rfl := Except.ok.inj ((hm _ rfl).symm.trans hleft)
  have hint : ∀ s ∈ [octet, word, octet], s.ExactHasType := by decide
  have hmixed : ¬[octet, word, octet].Pairwise Compatible := by decide +kernel
  exact ⟨hexact, hpairwise, hm, (merge_in_any_grouping hint).2.1 hmixed⟩

end Stamp

end DivGuard
