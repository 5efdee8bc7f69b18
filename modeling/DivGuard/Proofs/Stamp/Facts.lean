import DivGuard.Proofs.Reference.Ancestry
import DivGuard.Stamp.RefFacts

/-!
# What facts about references mean

Facts admit null, objects of some classes, both or nothing.  One set of facts implies another if it
admits no more, and merged facts are implied by just those facts that both sides are implied by:
merging is the least upper bound.  Null is a matter of the flags alone, so the proof is about which
classes are admitted, and rests on the common ancestor being the least class above two others.
-/

namespace DivGuard

/-- Values as far as stamps tell them apart. -/
inductive Stamp.Value where
  | int (word : Int64)
  | null
  | object (type : ClassType)
  deriving DecidableEq, Repr

attribute [ext] RefFacts

namespace RefFacts

variable {f g h : RefFacts} {type : ClassType}

def AdmitsClass (f : RefFacts) (type : ClassType) : Prop :=
  match f.type?, f.exact with
  | none, _ => True
  | some declared, true => type = declared
  | some declared, false => declared.includes type = true

def Admits (f : RefFacts) : Stamp.Value → Prop
  | .int _ => False
  | .null => f.nonNull = false
  | .object type => f.alwaysNull = false ∧ f.AdmitsClass type

def Implies (f g : RefFacts) : Prop := ∀ v, f.Admits v → g.Admits v

/-! ## Classes -/

theorem admitsClass_of_untyped (hf : f.type? = none) (type : ClassType) : f.AdmitsClass type := by
  rw [AdmitsClass, hf]
  trivial

theorem admitsClass_of_exact {declared : ClassType} (hf : f.type? = some declared)
    (hexact : f.exact = true) : f.AdmitsClass type ↔ type = declared := by
  rw [AdmitsClass, hf, hexact]

theorem admitsClass_of_inexact {declared : ClassType} (hf : f.type? = some declared)
    (hexact : f.exact = false) : f.AdmitsClass type ↔ declared.includes type = true := by
  rw [AdmitsClass, hf, hexact]

theorem admitsClass_declared {declared : ClassType} (hf : f.type? = some declared) :
    f.AdmitsClass declared := by
  cases hexact : f.exact with
  | false => exact (admitsClass_of_inexact hf hexact).mpr declared.includes_refl
  | true => exact (admitsClass_of_exact hf hexact).mpr rfl

theorem includes_of_admitsClass {declared : ClassType} (hf : f.type? = some declared)
    (htype : f.AdmitsClass type) : declared.includes type = true := by
  cases hexact : f.exact with
  | false => exact (admitsClass_of_inexact hf hexact).mp htype
  | true => exact (admitsClass_of_exact hf hexact).mp htype ▸ declared.includes_refl

theorem exists_admitsClass (f : RefFacts) : ∃ type, f.AdmitsClass type := by
  cases hf : f.type? with
  | none => exact ⟨.root "", admitsClass_of_untyped hf _⟩
  | some declared => exact ⟨declared, admitsClass_declared hf⟩

/-- No class includes two roots, so none includes every class. -/
theorem not_forall_includes (declared : ClassType) : ¬∀ type, declared.includes type = true := by
  intro h
  have hempty : declared = .root "" := ClassType.includes_root.mp (h (.root ""))
  have hother : declared = .root "a" := ClassType.includes_root.mp (h (.root "a"))
  simp [hempty] at hother

/-- Facts without a class are implied by all others.  Facts with one are implied by facts with a
class below it; exact ones only by exact facts with the same class. -/
theorem admitsClass_mono_iff :
    (∀ type, f.AdmitsClass type → g.AdmitsClass type) ↔
      g.type? = none ∨ ∃ a b, f.type? = some a ∧ g.type? = some b ∧ b.includes a = true ∧
        (g.exact = true → f.exact = true ∧ a = b) := by
  constructor
  · intro himplies
    cases hg : g.type? with
    | none => exact .inl rfl
    | some b =>
      refine .inr ?_
      cases hf : f.type? with
      | none =>
          refine absurd (fun type ↦ ?_) (not_forall_includes b)
          exact includes_of_admitsClass hg (himplies type (admitsClass_of_untyped hf type))
      | some a =>
          have hdeclared := himplies a (admitsClass_declared hf)
          refine ⟨a, b, rfl, rfl, includes_of_admitsClass hg hdeclared, fun hexact ↦ ?_⟩
          obtain rfl : a = b := (admitsClass_of_exact hg hexact).mp hdeclared
          refine ⟨?_, rfl⟩
          -- Otherwise a class below the declared one would be admitted as well.
          by_contra hinexact
          have hbelow := himplies (.subclass "" a)
            ((admitsClass_of_inexact hf (Bool.eq_false_iff.mpr hinexact)).mpr
              (a.includes_subclass ""))
          have hsame : ClassType.subclass "" a = a := (admitsClass_of_exact hg hexact).mp hbelow
          have hnot := a.not_subclass_includes ""
          rw [hsame, a.includes_refl] at hnot
          cases hnot
  · rintro (hg | ⟨a, b, hf, hg, hincludes, hexact⟩) type htype
    · exact admitsClass_of_untyped hg type
    · cases hge : g.exact with
      | true =>
          obtain ⟨hfe, rfl⟩ := hexact hge
          exact (admitsClass_of_exact hg hge).mpr ((admitsClass_of_exact hf hfe).mp htype)
      | false =>
          exact (admitsClass_of_inexact hg hge).mpr
            (ClassType.includes_trans hincludes (includes_of_admitsClass hf htype))

/-! ## Implication -/

theorem implies_iff :
    f.Implies g ↔ (f.nonNull = false → g.nonNull = false) ∧
      (f.alwaysNull = false → g.alwaysNull = false ∧
        ∀ type, f.AdmitsClass type → g.AdmitsClass type) := by
  constructor
  · intro himplies
    refine ⟨himplies .null, fun hobjects ↦ ⟨?_, fun type htype ↦ ?_⟩⟩
    · obtain ⟨type, htype⟩ := f.exists_admitsClass
      exact (himplies (.object type) ⟨hobjects, htype⟩).1
    · exact (himplies (.object type) ⟨hobjects, htype⟩).2
  · rintro ⟨hnull, hobjects⟩ v hv
    cases v with
    | int word => cases hv
    | null => exact hnull hv
    | object type => exact ⟨(hobjects hv.1).1, (hobjects hv.1).2 type hv.2⟩

theorem Implies.refl (f : RefFacts) : f.Implies f := fun _ hv ↦ hv

/-- Equal but for what says nothing: the class and exactness of facts that admit no objects, and
exactness where there is no class. -/
structure Agrees (f g : RefFacts) : Prop where
  nonNull : f.nonNull = g.nonNull
  alwaysNull : f.alwaysNull = g.alwaysNull
  type? : f.alwaysNull = false → f.type? = g.type?
  exact : f.alwaysNull = false → f.type? ≠ none → f.exact = g.exact

theorem Implies.antisymm (hfg : f.Implies g) (hgf : g.Implies f) : f.Agrees g := by
  obtain ⟨hnull, hobjects⟩ := implies_iff.mp hfg
  obtain ⟨hnull', hobjects'⟩ := implies_iff.mp hgf
  have hflags : ∀ {x y : Bool}, (x = false → y = false) → (y = false → x = false) → x = y := by
    decide
  suffices hsame : f.alwaysNull = false →
      f.type? = g.type? ∧ (f.type? ≠ none → f.exact = g.exact) from
    { nonNull := hflags hnull hnull'
      alwaysNull := hflags (fun hf ↦ (hobjects hf).1) fun hg ↦ (hobjects' hg).1
      type? := fun hf ↦ (hsame hf).1
      exact := fun hf ↦ (hsame hf).2 }
  intro hf
  obtain ⟨hg, hclasses⟩ := hobjects hf
  obtain ⟨-, hclasses'⟩ := hobjects' hg
  rcases admitsClass_mono_iff.mp hclasses with hnone | ⟨a, b, ha, hb, hba, hexact⟩
  · rcases admitsClass_mono_iff.mp hclasses' with hnone' | ⟨a, b, ha, -, -, -⟩
    · exact ⟨hnone'.trans hnone.symm, fun hsome ↦ absurd hnone' hsome⟩
    · simp [hnone] at ha
  · rcases admitsClass_mono_iff.mp hclasses' with hnone' | ⟨b', a', hb', ha', hab, hexact'⟩
    · simp [hnone'] at ha
    · obtain rfl : b = b' := Option.some.inj (hb.symm.trans hb')
      obtain rfl : a = a' := Option.some.inj (ha.symm.trans ha')
      obtain rfl : a = b := ClassType.includes_antisymm hab hba
      exact ⟨ha.trans hb.symm, fun _ ↦ Bool.eq_iff_iff.mpr
        ⟨fun hf ↦ (hexact' hf).1, fun hg ↦ (hexact hg).1⟩⟩

theorem Agrees.implies (h : f.Agrees g) : f.Implies g := by
  refine implies_iff.mpr ⟨fun hf ↦ h.nonNull ▸ hf, fun hf ↦ ⟨h.alwaysNull ▸ hf, fun type ↦ ?_⟩⟩
  have htype := h.type? hf
  cases hdeclared : f.type? with
  | none => exact fun _ ↦ admitsClass_of_untyped (htype.symm.trans hdeclared) type
  | some declared =>
      have hexact := h.exact hf (by simp [hdeclared])
      simp only [AdmitsClass, htype, hexact, imp_self]

theorem agrees_iff : f.Agrees g ↔ ∀ v, f.Admits v ↔ g.Admits v := by
  constructor
  · intro h v
    have hgf : g.Agrees f :=
      { nonNull := h.nonNull.symm
        alwaysNull := h.alwaysNull.symm
        type? := fun hg ↦ (h.type? (h.alwaysNull.trans hg)).symm
        exact := fun hg hsome ↦
          have hf := h.alwaysNull.trans hg
          (h.exact hf (h.type? hf ▸ hsome)).symm }
    exact ⟨h.implies v, hgf.implies v⟩
  · intro hsame
    exact Implies.antisymm (fun v ↦ (hsame v).mp) fun v ↦ (hsame v).mpr

/-! ## Merging

Facts that are always null admit no objects.  Beside such facts the other side keeps its class, and
of two of them the right one stays unless it alone is empty.
-/

@[simp] theorem merge_self (f : RefFacts) : f.merge f = f := by
  simp [merge]

theorem merge_of_nulls (hf : f.alwaysNull = true) (hg : g.alwaysNull = true) :
    f.merge g = if f.nonNull = false ∧ g.nonNull = true then f else g := by
  obtain ⟨type?, exact, nonNull, alwaysNull⟩ := g
  obtain rfl : alwaysNull = true := hg
  cases hf' : f.nonNull <;> cases nonNull <;> simp +contextual [merge, isEmpty, hf, hf']

theorem merge_of_null_left (hf : f.alwaysNull = true) (hg : g.alwaysNull = false) :
    f.merge g = { g with nonNull := f.nonNull && g.nonNull } := by
  have hne : f ≠ g := fun hsame ↦ by simp [← hsame, hf] at hg
  obtain ⟨type?, exact, nonNull, alwaysNull⟩ := g
  obtain rfl : alwaysNull = false := hg
  cases hf' : f.nonNull <;> simp [merge, isEmpty, hf, hf', hne]

theorem merge_of_null_right (hf : f.alwaysNull = false) (hg : g.alwaysNull = true) :
    f.merge g = { f with nonNull := f.nonNull && g.nonNull } := by
  have hne : f ≠ g := fun hsame ↦ by simp [hsame, hg] at hf
  obtain ⟨type?, exact, nonNull, alwaysNull⟩ := f
  obtain rfl : alwaysNull = false := hf
  cases hg' : g.nonNull <;> simp [merge, isEmpty, hg, hg', hne]

theorem merge_keeps_right (hf : f.alwaysNull = true) (hg : g.alwaysNull = false)
    (hnull : g.nonNull = true → f.nonNull = true) : f.merge g = g := by
  obtain ⟨type?, exact, nonNull, alwaysNull⟩ := g
  obtain rfl : alwaysNull = false := hg
  rw [merge_of_null_left hf rfl]
  cases nonNull <;> simp_all

theorem merge_keeps_left (hf : f.alwaysNull = false) (hg : g.alwaysNull = true)
    (hnull : f.nonNull = true → g.nonNull = true) : f.merge g = f := by
  obtain ⟨type?, exact, nonNull, alwaysNull⟩ := f
  obtain rfl : alwaysNull = false := hf
  rw [merge_of_null_right rfl hg]
  cases nonNull <;> simp_all

theorem merge_of_objects (hf : f.alwaysNull = false) (hg : g.alwaysNull = false) (hne : f ≠ g) :
    f.merge g =
      { type? := merge.commonType? f.type? g.type?
        exact := f.exact && g.exact && (merge.commonType? f.type? g.type?).isSome &&
          f.type? == g.type?
        nonNull := f.nonNull && g.nonNull } := by
  simp [merge, isEmpty, hne, hf, hg]

@[simp] theorem merge_alwaysNull (f g : RefFacts) :
    (f.merge g).alwaysNull = (f.alwaysNull && g.alwaysNull) := by
  cases hf : f.alwaysNull <;> cases hg : g.alwaysNull
  · by_cases hne : f = g
    · simp [hne, hg]
    · simp [merge_of_objects hf hg hne]
  · simp [merge_of_null_right hf hg, hf]
  · simp [merge_of_null_left hf hg, hg]
  · rw [merge_of_nulls hf hg]
    split <;> simp [hf, hg]

@[simp] theorem merge_nonNull (f g : RefFacts) :
    (f.merge g).nonNull = (f.nonNull && g.nonNull) := by
  cases hf : f.alwaysNull <;> cases hg : g.alwaysNull
  · by_cases hne : f = g
    · simp [hne]
    · simp [merge_of_objects hf hg hne]
  · simp [merge_of_null_right hf hg]
  · simp [merge_of_null_left hf hg]
  · rw [merge_of_nulls hf hg]
    cases hf' : f.nonNull <;> cases hg' : g.nonNull <;> simp [hf', hg']

/-- The class of merged objects is the least that includes both. -/
theorem merge_admitsClass_mono_iff (hf : f.alwaysNull = false) (hg : g.alwaysNull = false)
    (hne : f ≠ g) :
    (∀ type, (f.merge g).AdmitsClass type → h.AdmitsClass type) ↔
      (∀ type, f.AdmitsClass type → h.AdmitsClass type) ∧
        ∀ type, g.AdmitsClass type → h.AdmitsClass type := by
  rw [merge_of_objects hf hg hne]
  simp only [admitsClass_mono_iff]
  cases hh : h.type? with
  | none => simp
  | some c =>
    cases hft : f.type? with
    | none => simp [merge.commonType?]
    | some a =>
      cases hgt : g.type? with
      | none => simp [merge.commonType?]
      | some b =>
        by_cases hab : a = b
        · subst hab
          simp [merge.commonType?]
          tauto
        · have hcommon := ClassType.includes_both_iff (a := a) (b := b) (c := c)
          simp only [merge.commonType?, reduceCtorEq, false_or, Option.some.injEq,
            exists_and_left, exists_eq_left', beq_iff_eq, hab, Bool.and_eq_true, and_false,
            false_and, imp_false, Bool.not_eq_true]
          constructor
          · rintro ⟨m, hm, hcm, hexact⟩
            obtain ⟨ha, hb⟩ := hcommon.mpr ⟨m, hm, hcm⟩
            simp [ha, hb, hexact]
          · rintro ⟨⟨ha, hexact⟩, hb, hexact'⟩
            obtain ⟨m, hm, hcm⟩ := hcommon.mp ⟨ha, hb⟩
            refine ⟨m, hm, hcm, Bool.eq_false_iff.mpr fun htrue ↦ hab ?_⟩
            exact (hexact htrue).2.trans (hexact' htrue).2.symm

theorem merge_objects_imply_iff :
    ((f.merge g).alwaysNull = false → h.alwaysNull = false ∧
      ∀ type, (f.merge g).AdmitsClass type → h.AdmitsClass type) ↔
    (f.alwaysNull = false → h.alwaysNull = false ∧
      ∀ type, f.AdmitsClass type → h.AdmitsClass type) ∧
    (g.alwaysNull = false → h.alwaysNull = false ∧
      ∀ type, g.AdmitsClass type → h.AdmitsClass type) := by
  rw [merge_alwaysNull]
  cases hf : f.alwaysNull <;> cases hg : g.alwaysNull
  · by_cases hne : f = g
    · simp [hne]
    · simp only [Bool.and_self, forall_const, merge_admitsClass_mono_iff hf hg hne]
      tauto
  · simp [merge_of_null_right hf hg, AdmitsClass]
  · simp [merge_of_null_left hf hg, AdmitsClass]
  · simp

theorem merge_implies_iff : (f.merge g).Implies h ↔ f.Implies h ∧ g.Implies h := by
  rw [implies_iff, implies_iff, implies_iff, merge_objects_imply_iff, merge_nonNull,
    Bool.and_eq_false_iff, or_imp, and_and_and_comm]

end RefFacts

end DivGuard
