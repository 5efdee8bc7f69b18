import DivGuard.Proofs.Stamp.Facts

/-!
# The order in which facts are merged

What merged facts admit depends only on which facts there are, not on their order or on how often
each occurs, since merging is the least upper bound.  The result itself can differ in parts that say
nothing: the class and exactness of a reference that is always null, and exactness without a class.
`Ambiguous` says when.
-/

namespace DivGuard

/-! ## Folds and members -/

section Fold

variable {α : Type} {op : α → α → α} {a b : α} {xs ys : List α}

variable (op) in
theorem foldl_induction {p : α → Prop} (hop : ∀ x y, p x → p y → p (op x y))
    (h : ∀ x ∈ a :: xs, p x) : p (xs.foldl op a) :=
  List.foldlRecOn xs op (h a List.mem_cons_self) fun x hx y hy ↦
    hop x y hx (h y (List.mem_cons_of_mem a hy))

variable (op) in
/-- What a fold has only if both operands of its last step have it, all members have, as long as
they and all intermediate results meet a condition. -/
theorem forall_of_foldl {p c : α → Prop} (hc : ∀ x y, c x → c y → c (op x y))
    (hop : ∀ x y, c x → c y → p (op x y) → p x ∧ p y) (h : ∀ x ∈ a :: xs, c x)
    (hp : p (xs.foldl op a)) : ∀ x ∈ a :: xs, p x := by
  induction xs generalizing a with
  | nil => simpa using hp
  | cons y ys ih =>
      have ha : c a := h a (by simp)
      have hy : c y := h y (by simp)
      have hall : ∀ x ∈ op a y :: ys, p x := by
        refine ih (fun x hx ↦ ?_) hp
        rcases List.mem_cons.mp hx with rfl | hx
        · exact hc a y ha hy
        · exact h x (by simp [hx])
      obtain ⟨hpa, hpy⟩ := hop a y ha hy (hall _ List.mem_cons_self)
      intro x hx
      rcases List.mem_cons.mp hx with rfl | hx
      · exact hpa
      rcases List.mem_cons.mp hx with rfl | hx
      · exact hpy
      · exact hall x (List.mem_cons_of_mem _ hx)

theorem foldl_lub_iff {r : α → α → Prop} (hop : ∀ x y z, r (op x y) z ↔ r x z ∧ r y z) (z : α) :
    r (xs.foldl op a) z ↔ ∀ x ∈ a :: xs, r x z := by
  induction xs generalizing a with
  | nil => simp
  | cons x xs ih => simp [ih, hop, and_assoc]

/-- Least upper bounds of the same members are below each other. -/
theorem foldl_lub_mono {r : α → α → Prop} (hop : ∀ x y z, r (op x y) z ↔ r x z ∧ r y z)
    (hrefl : ∀ x, r x x) (hsub : ∀ x, x ∈ a :: xs → x ∈ b :: ys) :
    r (xs.foldl op a) (ys.foldl op b) :=
  (foldl_lub_iff hop _).mpr fun x hx ↦ (foldl_lub_iff hop _).mp (hrefl _) x (hsub x hx)

end Fold

namespace RefFacts

variable {f g h m n : RefFacts} {fs gs : List RefFacts}

theorem foldl_merge_nonNull (f : RefFacts) (fs : List RefFacts) :
    (fs.foldl merge f).nonNull = true ↔ ∀ h ∈ f :: fs, h.nonNull = true :=
  foldl_lub_iff (r := fun h _ ↦ h.nonNull = true) (by simp) f

theorem foldl_merge_alwaysNull (f : RefFacts) (fs : List RefFacts) :
    (fs.foldl merge f).alwaysNull = true ↔ ∀ h ∈ f :: fs, h.alwaysNull = true :=
  foldl_lub_iff (r := fun h _ ↦ h.alwaysNull = true) (by simp) f

theorem foldl_merge_implies (hsub : ∀ h, h ∈ f :: fs → h ∈ g :: gs) :
    (fs.foldl merge f).Implies (gs.foldl merge g) :=
  foldl_lub_mono (fun _ _ _ ↦ merge_implies_iff) Implies.refl hsub

theorem foldl_merge_agrees (hsame : ∀ h, h ∈ g :: gs ↔ h ∈ f :: fs) :
    (fs.foldl merge f).Agrees (gs.foldl merge g) :=
  Implies.antisymm (foldl_merge_implies fun h hh ↦ (hsame h).mpr hh)
    (foldl_merge_implies fun h hh ↦ (hsame h).mp hh)

/-! ## Where the result depends on more than the set -/

/-- Only nulls, of which two different ones admit as much as all of them. -/
def TiedNulls (fs : List RefFacts) : Prop :=
  (∀ h ∈ fs, h.alwaysNull = true) ∧
    ∃ f ∈ fs, ∃ g ∈ fs, f ≠ g ∧ ∀ h ∈ fs, h.nonNull = false → f.nonNull = false ∧ g.nonNull = false

/-- Objects that all are exact without a class, one of them never null, beside null.  Null takes
from that one that it is never null, and what results is a different object to merge with. -/
def ExactnessAtRisk (fs : List RefFacts) : Prop :=
  (∀ h ∈ fs, h.alwaysNull = true ∨ h.type? = none ∧ h.exact = true) ∧
    (∃ f ∈ fs, f.alwaysNull = false ∧ f.nonNull = true) ∧
    ∃ n ∈ fs, n.alwaysNull = true ∧ n.nonNull = false

def Ambiguous (fs : List RefFacts) : Prop := TiedNulls fs ∨ ExactnessAtRisk fs

instance (fs : List RefFacts) : Decidable (TiedNulls fs) :=
  inferInstanceAs (Decidable (_ ∧ _))

instance (fs : List RefFacts) : Decidable (ExactnessAtRisk fs) :=
  inferInstanceAs (Decidable (_ ∧ _))

instance (fs : List RefFacts) : Decidable (Ambiguous fs) :=
  inferInstanceAs (Decidable (_ ∨ _))

theorem foldl_merge_mem_of_nulls (hnulls : ∀ h ∈ f :: fs, h.alwaysNull = true) :
    fs.foldl merge f ∈ f :: fs ∧ (fs.foldl merge f).alwaysNull = true := by
  refine foldl_induction merge (p := fun h ↦ h ∈ f :: fs ∧ h.alwaysNull = true) ?_
    fun h hh ↦ ⟨hh, hnulls h hh⟩
  rintro x y ⟨hx, hxnull⟩ ⟨hy, hynull⟩
  rw [merge_of_nulls hxnull hynull]
  split
  · exact ⟨hx, hxnull⟩
  · exact ⟨hy, hynull⟩

theorem foldl_merge_eq_of_nulls (hnulls : ∀ h ∈ f :: fs, h.alwaysNull = true)
    (hnot : ¬TiedNulls (f :: fs)) (hsame : ∀ h, h ∈ g :: gs ↔ h ∈ f :: fs) :
    gs.foldl merge g = fs.foldl merge f := by
  have hmem := (foldl_merge_mem_of_nulls hnulls).1
  have hmem' := (hsame _).mp (foldl_merge_mem_of_nulls fun h hh ↦ hnulls h ((hsame h).mp hh)).1
  have hagrees := foldl_merge_agrees hsame
  by_contra hne
  refine hnot ⟨hnulls, _, hmem', _, hmem, hne, fun h hh hnullable ↦ ?_⟩
  have hresult : (fs.foldl merge f).nonNull = false := by
    apply Bool.of_not_eq_true
    rw [foldl_merge_nonNull]
    intro hnonNull
    simp [hnonNull h hh] at hnullable
  exact ⟨hagrees.nonNull ▸ hresult, hresult⟩

/-- A merge of objects is exact without a class only if both are, and the same. -/
theorem eq_of_merge_untyped_exact (hf : f.alwaysNull = false) (hg : g.alwaysNull = false)
    (htype : (f.merge g).type? = none) (hexact : (f.merge g).exact = true) : f = g := by
  by_contra hne
  simp only [merge_of_objects hf hg hne] at htype hexact
  simp [htype] at hexact

theorem forall_untyped_exact_of_foldl (htype : (fs.foldl merge f).type? = none)
    (hexact : (fs.foldl merge f).exact = true) :
    ∀ h ∈ f :: fs, h.alwaysNull = true ∨ h.type? = none ∧ h.exact = true := by
  refine forall_of_foldl merge (c := fun _ ↦ True) (fun _ _ _ _ ↦ trivial) ?_
    (fun _ _ ↦ trivial) (.inr ⟨htype, hexact⟩)
  intro x y _ _ hmerge
  cases hx : x.alwaysNull <;> cases hy : y.alwaysNull
  · obtain ⟨htype, hexact⟩ := hmerge.resolve_left (by simp [hx])
    obtain rfl := eq_of_merge_untyped_exact hx hy htype hexact
    rw [merge_self] at htype hexact
    exact ⟨.inr ⟨htype, hexact⟩, .inr ⟨htype, hexact⟩⟩
  · rw [merge_of_null_right hx hy] at hmerge
    exact ⟨by simpa [hx] using hmerge, .inl rfl⟩
  · rw [merge_of_null_left hx hy] at hmerge
    exact ⟨.inl rfl, by simpa [hy] using hmerge⟩
  · exact ⟨.inl rfl, .inl rfl⟩

/-- Empty facts change nothing, so what they are merged with comes out again. -/
theorem forall_eq_of_foldl (hm : m.alwaysNull = false) (htype : m.type? = none)
    (hexact : m.exact = true) (hempty : ∀ h ∈ f :: fs, h.alwaysNull = true → h.nonNull = true)
    (hfold : fs.foldl merge f = m) : ∀ h ∈ f :: fs, h.alwaysNull = true ∨ h = m := by
  refine forall_of_foldl merge (c := fun h ↦ h.alwaysNull = true → h.nonNull = true) ?_ ?_
    hempty (.inr hfold)
  · intro x y hx hy hnull
    rw [merge_alwaysNull, Bool.and_eq_true] at hnull
    rw [merge_nonNull, hx hnull.1, hy hnull.2, Bool.and_self]
  · intro x y hxc hyc hmerge
    cases hx : x.alwaysNull <;> cases hy : y.alwaysNull
    · obtain rfl := hmerge.resolve_left (by simp [hx])
      obtain rfl := eq_of_merge_untyped_exact hx hy htype hexact
      exact ⟨.inr (merge_self x).symm, .inr (merge_self x).symm⟩
    · obtain rfl := hmerge.resolve_left (by simp [hx])
      exact ⟨.inr (merge_keeps_left hx hy fun _ ↦ hyc hy).symm, .inl rfl⟩
    · obtain rfl := hmerge.resolve_left (by simp [hy])
      exact ⟨.inl rfl, .inr (merge_keeps_right hx hy fun _ ↦ hxc hx).symm⟩
    · exact ⟨.inl rfl, .inl rfl⟩

/-- Objects that are all the same stay so beside nulls that leave their nullness alone. -/
theorem foldl_merge_eq_of_objects (hm : m.alwaysNull = false)
    (hobjects : ∀ h ∈ f :: fs, h.alwaysNull = true ∧ (m.nonNull = true → h.nonNull = true) ∨ h = m)
    (hfold : (fs.foldl merge f).alwaysNull = false) : fs.foldl merge f = m := by
  have hresult := foldl_induction merge
    (p := fun h ↦ h.alwaysNull = true ∧ (m.nonNull = true → h.nonNull = true) ∨ h = m) ?_ hobjects
  · exact hresult.resolve_left (by simp [hfold])
  rintro x y (⟨hx, hxm⟩ | hx) (⟨hy, hym⟩ | hy)
  · refine .inl ⟨by simp [hx, hy], fun hnonNull ↦ ?_⟩
    rw [merge_nonNull, hxm hnonNull, hym hnonNull, Bool.and_self]
  · exact .inr (hy.symm ▸ merge_keeps_right hx hm hxm)
  · exact .inr (hx.symm ▸ merge_keeps_left hm hy hym)
  · exact .inr (by rw [hx, hy, merge_self])

theorem objects_eq_of_untyped_exact (hm : fs.foldl merge f = m) (hobject : m.alwaysNull = false)
    (htype : m.type? = none) (hexact : m.exact = true) (hsafe : ¬ExactnessAtRisk (f :: fs)) :
    ∀ h ∈ f :: fs, h.alwaysNull = true ∧ (m.nonNull = true → h.nonNull = true) ∨ h = m := by
  intro h hh
  have hnonNull (hmn : m.nonNull = true) : h.nonNull = true :=
    (foldl_merge_nonNull f fs).mp (hm ▸ hmn) h hh
  by_cases hnull : ∃ n ∈ f :: fs, n.alwaysNull = true ∧ n.nonNull = false
  · have hall := forall_untyped_exact_of_foldl (hm ▸ htype) (hm ▸ hexact)
    cases hha : h.alwaysNull with
    | true => exact .inl ⟨rfl, hnonNull⟩
    | false =>
      refine .inr ?_
      obtain ⟨hht, hhe⟩ := (hall h hh).resolve_left (by simp [hha])
      -- Since some reference may be null, no object is known not to be.
      have hhn : h.nonNull ≠ true := fun hhn ↦ hsafe ⟨hall, ⟨h, hh, hha, hhn⟩, hnull⟩
      apply RefFacts.ext
      · rw [hht, htype]
      · rw [hhe, hexact]
      · rw [Bool.eq_false_iff.mpr hhn, Bool.eq_false_iff.mpr fun hmn ↦ hhn (hnonNull hmn)]
      · rw [hha, hobject]
  · have hempty : ∀ n ∈ f :: fs, n.alwaysNull = true → n.nonNull = true := fun n hn hna ↦
      Bool.of_not_eq_false fun hnn ↦ hnull ⟨n, hn, hna, hnn⟩
    have hkept := forall_eq_of_foldl hobject htype hexact hempty hm h hh
    exact hkept.imp_left fun hha ↦ ⟨hha, hnonNull⟩

theorem foldl_merge_exact (hsame : ∀ h, h ∈ g :: gs ↔ h ∈ f :: fs)
    (hobject : (fs.foldl merge f).alwaysNull = false) (htype : (fs.foldl merge f).type? = none)
    (hexact : (fs.foldl merge f).exact = true) (hsafe : ¬ExactnessAtRisk (f :: fs)) :
    (gs.foldl merge g).exact = true := by
  have hobjects := objects_eq_of_untyped_exact rfl hobject htype hexact hsafe
  have hfold : (gs.foldl merge g).alwaysNull = false :=
    (foldl_merge_agrees hsame).alwaysNull ▸ hobject
  rw [foldl_merge_eq_of_objects hobject (fun h hh ↦ hobjects h ((hsame h).mp hh)) hfold]
  exact hexact

theorem exactnessAtRisk_congr (hsame : ∀ h, h ∈ gs ↔ h ∈ fs) :
    ExactnessAtRisk gs ↔ ExactnessAtRisk fs := by
  simp only [ExactnessAtRisk, hsame]

theorem foldl_merge_eq_of_object (hsame : ∀ h, h ∈ g :: gs ↔ h ∈ f :: fs)
    (hobject : (fs.foldl merge f).alwaysNull = false) (hsafe : ¬ExactnessAtRisk (f :: fs)) :
    gs.foldl merge g = fs.foldl merge f := by
  have hagrees := foldl_merge_agrees hsame
  have hobject' : (gs.foldl merge g).alwaysNull = false := hagrees.alwaysNull ▸ hobject
  have htype := hagrees.type? hobject
  have hexact : (fs.foldl merge f).exact = (gs.foldl merge g).exact := by
    by_cases hnone : (fs.foldl merge f).type? = none
    · rw [Bool.eq_iff_iff]
      constructor
      · intro hexact
        exact foldl_merge_exact hsame hobject hnone hexact hsafe
      · intro hexact
        refine foldl_merge_exact (fun h ↦ (hsame h).symm) hobject' (htype ▸ hnone) hexact ?_
        rwa [exactnessAtRisk_congr hsame]
    · exact hagrees.exact hobject hnone
  exact (RefFacts.ext htype hexact hagrees.nonNull hagrees.alwaysNull).symm

theorem merge_comm_iff : f.merge g = g.merge f ↔ ¬TiedNulls [f, g] := by
  cases hf : f.alwaysNull <;> cases hg : g.alwaysNull
  · have hsafe : ¬ExactnessAtRisk [g, f] := by simp [ExactnessAtRisk, hf, hg]
    have hmembers : ∀ h, h ∈ [f, g] ↔ h ∈ [g, f] := by simp [or_comm]
    have hcomm := foldl_merge_eq_of_object hmembers (by simp [hf]) hsafe
    exact iff_of_true hcomm (by simp [TiedNulls, hf])
  · refine iff_of_true ?_ (by simp [TiedNulls, hf])
    rw [merge_of_null_right hf hg, merge_of_null_left hg hf, Bool.and_comm]
  · refine iff_of_true ?_ (by simp [TiedNulls, hg])
    rw [merge_of_null_left hf hg, merge_of_null_right hg hf, Bool.and_comm]
  · by_cases hfg : f = g
    · simp [hfg, TiedNulls]
    · rw [merge_of_nulls hf hg, merge_of_nulls hg hf]
      cases hfn : f.nonNull <;> cases hgn : g.nonNull <;>
        simp [TiedNulls, hf, hg, hfn, hgn, hfg, Ne.symm hfg]

/-! ## Lists with the same members and different results -/

theorem foldl_merge_concat_of_nulls (hnulls : ∀ h ∈ f :: fs, h.alwaysNull = true) (hg : g ∈ f :: fs)
    (hnullable : ∀ h ∈ f :: fs, h.nonNull = false → g.nonNull = false) :
    (fs ++ [g]).foldl merge f = g := by
  obtain ⟨hmem, hnull⟩ := foldl_merge_mem_of_nulls hnulls
  rw [List.foldl_concat, merge_of_nulls hnull (hnulls g hg), if_neg]
  rintro ⟨hresult, hgn⟩
  simp [hnullable _ hmem hresult] at hgn

theorem exists_foldl_merge_ne_of_tiedNulls (h : TiedNulls (f :: fs)) :
    ∃ g gs gs', (∀ h, h ∈ g :: gs ↔ h ∈ f :: fs) ∧ (∀ h, h ∈ g :: gs' ↔ h ∈ f :: fs) ∧
      gs.foldl merge g ≠ gs'.foldl merge g := by
  obtain ⟨hnulls, m, hm, n, hn, hne, hnullable⟩ := h
  have hmembers {x} (hx : x ∈ f :: fs) (h) : h ∈ f :: (fs ++ [x]) ↔ h ∈ f :: fs := by
    rw [← List.cons_append, List.mem_append, List.mem_singleton, or_iff_left_of_imp]
    rintro rfl
    exact hx
  refine ⟨f, fs ++ [m], fs ++ [n], hmembers hm, hmembers hn, ?_⟩
  rw [foldl_merge_concat_of_nulls hnulls hm fun h hh hnull ↦ (hnullable h hh hnull).1,
    foldl_merge_concat_of_nulls hnulls hn fun h hh hnull ↦ (hnullable h hh hnull).2]
  exact hne

theorem foldl_merge_inexact (hf : f.alwaysNull = false) (hinexact : f.exact = false)
    (hall : ∀ h ∈ fs, h.alwaysNull = true ∨ h.type? = none ∧ h.exact = true) :
    (fs.foldl merge f).exact = false := by
  refine (List.foldlRecOn fs merge (motive := fun h ↦ h.alwaysNull = false ∧ h.exact = false)
    ⟨hf, hinexact⟩ ?_).2
  rintro g ⟨hg, hinexact⟩ h hh
  refine ⟨by simp [hg], ?_⟩
  rcases hall h hh with hnull | ⟨htype, hexact⟩
  · rw [merge_of_null_right hg hnull]
    exact hinexact
  · cases hnull : h.alwaysNull with
    | true =>
      rw [merge_of_null_right hg hnull]
      exact hinexact
    | false =>
      have hne : g ≠ h := fun hsame ↦ by simp [← hsame, hinexact] at hexact
      simp [merge_of_objects hg hnull hne, hinexact]

theorem foldl_merge_untyped_exact
    (hall : ∀ h ∈ fs, h.alwaysNull = true ∨ h.type? = none ∧ h.exact = true)
    (hnonNull : ∀ h ∈ fs, h.alwaysNull = false → h.nonNull = false) :
    fs.foldl merge { exact := true } = { exact := true } := by
  refine foldl_merge_eq_of_objects rfl (fun h hh ↦ ?_) ?_
  · rcases List.mem_cons.mp hh with rfl | hh
    · exact .inr rfl
    cases hnull : h.alwaysNull with
    | true => exact .inl ⟨rfl, by simp⟩
    | false =>
      obtain ⟨htype, hexact⟩ := (hall h hh).resolve_left (by simp [hnull])
      exact .inr (RefFacts.ext htype hexact (hnonNull h hh hnull) hnull)
  · apply Bool.of_not_eq_true
    rw [foldl_merge_alwaysNull]
    intro hnulls
    cases hnulls _ List.mem_cons_self

/-- Null makes the object that is never null nullable.  Merged with that object again it is not
exact any more, but it is if all merged later are nullable too. -/
theorem exists_foldl_merge_ne_of_exactnessAtRisk (h : ExactnessAtRisk fs) :
    ∃ g gs gs', (∀ h, h ∈ g :: gs ↔ h ∈ fs) ∧ (∀ h, h ∈ g :: gs' ↔ h ∈ fs) ∧
      gs.foldl merge g ≠ gs'.foldl merge g := by
  obtain ⟨hall, ⟨f, hf, hobject, hnonNull⟩, n, hn, hnull, hnullable⟩ := h
  obtain ⟨htype, hexact⟩ := (hall f hf).resolve_left (by simp [hobject])
  obtain rfl : f = { exact := true, nonNull := true } :=
    RefFacts.ext htype hexact hnonNull hobject
  set f : RefFacts := { exact := true, nonNull := true }
  have hfirst : f.merge n = { exact := true } := by
    rw [merge_of_null_right hobject hnull, hnullable, Bool.and_false]
  have hlost : ((n :: f :: fs).foldl merge f).exact = false := by
    rw [List.foldl_cons, hfirst, List.foldl_cons]
    exact foldl_merge_inexact rfl rfl hall
  have hkept : ((n :: fs.filter (· ≠ f)).foldl merge f) = { exact := true } := by
    rw [List.foldl_cons, hfirst]
    refine foldl_merge_untyped_exact (fun h hh ↦ hall h (List.mem_of_mem_filter hh)) ?_
    intro h hh hobject
    obtain ⟨hmem, hne⟩ := List.mem_filter.mp hh
    obtain ⟨htype, hexact⟩ := (hall h hmem).resolve_left (by simp [hobject])
    apply Bool.of_not_eq_true
    intro hnonNull
    exact of_decide_eq_true hne (RefFacts.ext htype hexact hnonNull hobject)
  refine ⟨f, n :: f :: fs, n :: fs.filter (· ≠ f), fun h ↦ ?_, fun h ↦ ?_, fun hsame ↦ ?_⟩
  · simp only [List.mem_cons]
    constructor
    · rintro (rfl | rfl | rfl | hh) <;> assumption
    · exact fun hh ↦ .inr (.inr (.inr hh))
  · simp only [List.mem_cons, List.mem_filter, decide_eq_true_eq]
    constructor
    · rintro (rfl | rfl | hh)
      · exact hf
      · exact hn
      · exact hh.1
    · intro hh
      by_cases hsame : h = f
      · exact .inl hsame
      · exact .inr (.inr ⟨hh, hsame⟩)
  · rw [hsame, hkept] at hlost
    cases hlost

theorem exists_foldl_merge_ne (h : Ambiguous (f :: fs)) :
    ∃ g gs gs', (∀ h, h ∈ g :: gs ↔ h ∈ f :: fs) ∧ (∀ h, h ∈ g :: gs' ↔ h ∈ f :: fs) ∧
      gs.foldl merge g ≠ gs'.foldl merge g :=
  h.elim exists_foldl_merge_ne_of_tiedNulls exists_foldl_merge_ne_of_exactnessAtRisk

/-! ## The condition -/

theorem foldl_merge_eq (hsame : ∀ h, h ∈ g :: gs ↔ h ∈ f :: fs) (hclear : ¬Ambiguous (f :: fs)) :
    gs.foldl merge g = fs.foldl merge f := by
  rw [Ambiguous, not_or] at hclear
  cases hnull : (fs.foldl merge f).alwaysNull with
  | false => exact foldl_merge_eq_of_object hsame hnull hclear.2
  | true =>
    rw [foldl_merge_alwaysNull] at hnull
    exact foldl_merge_eq_of_nulls hnull hclear.1 hsame

/-- The set of facts determines what they merge to just if it is not ambiguous. -/
theorem foldl_merge_eq_iff :
    (∀ g gs, (∀ h, h ∈ g :: gs ↔ h ∈ f :: fs) → gs.foldl merge g = fs.foldl merge f) ↔
      ¬Ambiguous (f :: fs) := by
  constructor
  · intro heq hambiguous
    obtain ⟨g, gs, gs', hsame, hsame', hne⟩ := exists_foldl_merge_ne hambiguous
    exact hne ((heq g gs hsame).trans (heq g gs' hsame').symm)
  · exact fun hclear g gs hsame ↦ foldl_merge_eq hsame hclear

end RefFacts

end DivGuard
