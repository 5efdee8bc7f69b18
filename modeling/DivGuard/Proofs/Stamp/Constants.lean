import DivGuard.Proofs.Integer.Extension
import DivGuard.Proofs.Stamp.Bracketing

/-!
# Merging constants

A stamp pins down a constant if the constant is the only value that it admits.  Where many paths
join, the merged stamp does so just if the stamps of all paths pin down that same constant.  Objects
are never pinned down, integers in normal form and nulls are.
-/

namespace DivGuard

/-- The constant that its own stamp can give back: of an integer the normal form. -/
def Constant.normalised : Constant → Constant
  | .int bits value => .ofInt bits value
  | .null form => .null form
  | .object address form => .object address form

/-- A constant that a stamp can pin down: null, or an integer in normal form. -/
def Constant.Foldable (c : Constant) : Prop := c.isNull = true ∨ ∃ bits value, c = .ofInt bits value

namespace IntRange

variable {r s : IntRange} {rs : List IntRange} {c : Constant}

/-- Both bounds are extended from the width, as those of a range between two words and of the hull
of such ranges are. -/
structure Normal (r : IntRange) : Prop where
  lower_eq : signExtend r.bits r.lower = r.lower
  upper_eq : signExtend r.bits r.upper = r.upper

theorem normal_between (bits : Nat) (lower upper : Int64) : (between bits lower upper).Normal :=
  ⟨signExtend_signExtend bits lower, signExtend_signExtend bits upper⟩

theorem Normal.hull (hr : r.Normal) (hs : s.Normal) (hbits : r.bits = s.bits) :
    (r.hull s).Normal where
  lower_eq := by
    rcases Std.min_eq_or (a := r.lower) (b := s.lower) with hmin | hmin
    · rw [IntRange.hull, hmin, hr.lower_eq]
    · rw [IntRange.hull, hmin, hbits, hs.lower_eq]
  upper_eq := by
    rcases Std.max_eq_or (a := r.upper) (b := s.upper) with hmax | hmax
    · rw [IntRange.hull, hmax, hr.upper_eq]
    · rw [IntRange.hull, hmax, hbits, hs.upper_eq]

theorem lower_le_upper_of_contains {v : Int64} (h : r.contains v = true) : r.lower ≤ r.upper :=
  Std.le_trans (contains_iff.mp h).1 (contains_iff.mp h).2

theorem constant?_eq_some_iff :
    r.constant? = some c ↔ r.lower = r.upper ∧ c = .ofInt r.bits r.lower := by
  simp [constant?, eq_comm (a := c)]

theorem eq_of_constant? (hr : r.Normal) (hs : s.Normal) (hrc : r.constant? = some c)
    (hsc : s.constant? = some c) : r = s := by
  obtain ⟨hrange, rfl⟩ := constant?_eq_some_iff.mp hrc
  obtain ⟨hrange', hconstant⟩ := constant?_eq_some_iff.mp hsc
  obtain ⟨hbits, hvalue⟩ := Constant.int.inj hconstant
  rw [hr.lower_eq, hs.lower_eq] at hvalue
  obtain ⟨bits, lower, upper⟩ := r
  obtain ⟨bits', lower', upper'⟩ := s
  simp_all

theorem foldl_hull_within_iff : (rs.foldl hull r).Within s ↔ ∀ t ∈ r :: rs, t.Within s :=
  foldl_lub_iff (fun _ _ _ ↦ hull_within_iff) s

theorem foldl_hull_constant?_iff (hbits : ∀ s ∈ rs, s.bits = r.bits)
    (hnormal : ∀ s ∈ r :: rs, s.Normal) (hordered : ∀ s ∈ r :: rs, s.lower ≤ s.upper) :
    (rs.foldl hull r).constant? = some c ↔ ∀ s ∈ r :: rs, s.constant? = some c := by
  constructor
  · intro hc s hs
    obtain ⟨hrange, rfl⟩ := constant?_eq_some_iff.mp hc
    have hwithin : s.Within (rs.foldl hull r) := foldl_hull_within_iff.mp (.refl _) s hs
    have hsbits : s.bits = r.bits := by
      rcases List.mem_cons.mp hs with rfl | hs
      · rfl
      · exact hbits s hs
    -- The bounds of the hull leave room for a single integer.
    have hupper : s.upper ≤ s.lower := Std.le_trans hwithin.2 (hrange ▸ hwithin.1)
    have hlower : s.lower ≤ (rs.foldl hull r).lower :=
      Std.le_trans (hordered s hs) (hrange ▸ hwithin.2)
    rw [constant?_eq_some_iff, foldl_hull_bits, hsbits]
    exact ⟨Std.le_antisymm (hordered s hs) hupper,
      congrArg _ (Std.le_antisymm hwithin.1 hlower)⟩
  · intro hall
    have hsame : ∀ s ∈ r :: rs, s = r := fun s hs ↦
      eq_of_constant? (hnormal s hs) (hnormal r List.mem_cons_self) (hall s hs)
        (hall r List.mem_cons_self)
    have hhull : rs.foldl hull r = r := by
      refine Within.antisymm (foldl_hull_within_iff.mpr fun s hs ↦ ?_)
        (foldl_hull_within_iff.mp (.refl _) r List.mem_cons_self) (foldl_hull_bits r rs)
      rw [hsame s hs]
      exact .refl r
    rw [hhull]
    exact hall r List.mem_cons_self

end IntRange

namespace Stamp

variable {a : Stamp} {as : List Stamp} {c k : Constant} {encoding? : Option Encoding}

/-- If it is the stamp of an integer, the bounds of its range are normal. -/
def RangeNormal : Stamp → Prop
  | .void => True
  | .int range => range.Normal
  | .ref _ _ => True

theorem constant?_ref_iff {layout : RefLayout} {f : RefFacts} :
    (ref layout f).constant? = some c ↔ f.alwaysNull = true ∧ c = .null layout.form := by
  simp [constant?, eq_comm (a := c)]

theorem foldl_merge_constant?_iff {layout : RefLayout} {f : RefFacts} {fs : List RefFacts} :
    (ref layout (fs.foldl RefFacts.merge f)).constant? = some c ↔
      ∀ g ∈ f :: fs, (ref layout g).constant? = some c := by
  simp only [constant?_ref_iff, RefFacts.foldl_merge_alwaysNull]
  constructor
  · rintro ⟨hnull, hc⟩ g hg
    exact ⟨hnull g hg, hc⟩
  · intro hall
    exact ⟨fun g hg ↦ (hall g hg).1, (hall f List.mem_cons_self).2⟩

/-- The merged stamp pins down what all stamps pin down. -/
theorem exists_mergeAll_constant? (h : (a :: as).Pairwise Compatible)
    (hranges : ∀ s ∈ a :: as, s.RangeNormal ∧ s.RangeNonempty) :
    ∃ m, mergeAll a as = .ok m ∧
      ∀ c, m.constant? = some c ↔ ∀ s ∈ a :: as, s.constant? = some c := by
  obtain ⟨-, has⟩ := List.forall_mem_cons.mp (compatible_of_pairwise h)
  have has' : ∀ b ∈ as, b.Compatible a := fun b hb ↦ (has b hb).symm
  cases a with
  | void =>
      refine ⟨.void, mergeAll_void fun b hb ↦ (has' b hb).eq_void, fun c ↦ ?_⟩
      refine iff_of_false (by simp [constant?]) fun hall ↦ ?_
      cases hall .void List.mem_cons_self
  | int r =>
      obtain ⟨rs, hbits, rfl⟩ := exists_map_int has'
      rw [← List.map_cons, List.forall_mem_map] at hranges
      refine ⟨_, mergeAll_int r rs hbits, fun c ↦ ?_⟩
      rw [← List.map_cons, List.forall_mem_map]
      refine IntRange.foldl_hull_constant?_iff hbits (fun s hs ↦ (hranges s hs).1) fun s hs ↦ ?_
      obtain ⟨v, hv⟩ := (hranges s hs).2
      exact IntRange.lower_le_upper_of_contains hv
  | ref layout f =>
      obtain ⟨fs, rfl⟩ := exists_map_ref has'
      refine ⟨_, mergeAll_ref layout f fs, fun c ↦ ?_⟩
      rw [← List.map_cons, List.forall_mem_map]
      exact foldl_merge_constant?_iff

/-! ## Stamps of constants -/

theorem form_of_layoutOf? {form : RefForm} {layout : RefLayout}
    (h : layoutOf? form encoding? = some layout) : layout.form = form := by
  cases form with
  | full =>
      obtain rfl := Option.some.inj h
      rfl
  | narrow =>
      obtain ⟨encoding, -, rfl⟩ := Option.map_eq_some_iff.mp h
      rfl

theorem ofReference_eq_ok_iff {facts : RefFacts} {form : RefForm} :
    ofConstant.ofReference k encoding? facts form = .ok a ↔
      ∃ layout, layoutOf? form encoding? = some layout ∧ a = .ref layout facts := by
  unfold ofConstant.ofReference
  cases layoutOf? form encoding? <;> simp [eq_comm (a := a)]

/-- The stamp of a constant pins down the constant in normal form, unless that is an object. -/
theorem constant?_ofConstant_iff (h : ofConstant k encoding? = .ok a) :
    a.constant? = some c ↔ k.normalised = c ∧ c.Foldable := by
  cases k with
  | int bits value =>
      obtain rfl := Except.ok.inj h
      have hpinned : (oneInt bits value).constant? = some (.ofInt bits value) := by
        simp [oneInt, constant?, IntRange.single, IntRange.between, IntRange.constant?,
          Constant.ofInt]
      rw [hpinned, Option.some.injEq, Constant.normalised]
      exact (and_iff_left_of_imp fun hc ↦ .inr ⟨bits, value, hc.symm⟩).symm
  | null form =>
      obtain ⟨layout, hlayout, rfl⟩ := ofReference_eq_ok_iff.mp h
      have hpinned : (ref layout .null).constant? = some (.null form) := by
        simp [constant?, RefFacts.null, form_of_layoutOf? hlayout]
      rw [hpinned, Option.some.injEq, Constant.normalised]
      refine (and_iff_left_of_imp ?_).symm
      rintro rfl
      exact .inl rfl
  | object address form =>
      obtain ⟨layout, -, rfl⟩ := ofReference_eq_ok_iff.mp h
      refine iff_of_false (by simp [constant?, RefFacts.object]) ?_
      rintro ⟨rfl, hnull | ⟨bits, value, hint⟩⟩
      · cases hnull
      · cases hint

theorem range_ofConstant (h : ofConstant k encoding? = .ok a) :
    a.RangeNormal ∧ a.RangeNonempty := by
  cases k with
  | int bits value =>
      obtain rfl := Except.ok.inj h
      exact ⟨IntRange.normal_between bits value value,
        IntRange.exists_contains_between_iff.mpr (Std.le_refl _)⟩
  | null form | object address form =>
      obtain ⟨layout, -, rfl⟩ := ofReference_eq_ok_iff.mp h
      exact ⟨trivial, trivial⟩

theorem range_of_ofConstant {ks : List Constant} {stamps : List Stamp}
    (h : List.Forall₂ (fun k s ↦ ofConstant k encoding? = .ok s) ks stamps) :
    ∀ s ∈ stamps, s.RangeNormal ∧ s.RangeNonempty := by
  induction h with
  | nil => simp
  | cons hk _ ih => exact List.forall_mem_cons.mpr ⟨range_ofConstant hk, ih⟩

theorem forall_constant?_ofConstant_iff {ks : List Constant} {stamps : List Stamp}
    (h : List.Forall₂ (fun k s ↦ ofConstant k encoding? = .ok s) ks stamps) :
    (∀ s ∈ stamps, s.constant? = some c) ↔ ∀ k ∈ ks, k.normalised = c ∧ c.Foldable := by
  induction h with
  | nil => simp
  | cons hk _ ih => rw [List.forall_mem_cons, List.forall_mem_cons, constant?_ofConstant_iff hk, ih]

/-- Stamps of one representation merge to a stamp that pins down a constant just if each of them
pins it down.  If they are the stamps of constants, these are all that constant, which is null or an
integer in normal form. -/
theorem mergeAll_pins_constant_iff (h : (a :: as).Pairwise Compatible) :
    ((∀ s ∈ a :: as, s.RangeNormal ∧ s.RangeNonempty) →
      ∃ m, mergeAll a as = .ok m ∧
        ∀ c, m.constant? = some c ↔ ∀ s ∈ a :: as, s.constant? = some c) ∧
    ∀ encoding? ks, List.Forall₂ (fun k s ↦ ofConstant k encoding? = .ok s) ks (a :: as) →
      ∃ m, mergeAll a as = .ok m ∧
        ∀ c, m.constant? = some c ↔ (∀ k ∈ ks, k.normalised = c) ∧ c.Foldable := by
  refine ⟨exists_mergeAll_constant? h, fun encoding? ks hks ↦ ?_⟩
  obtain ⟨m, hm, hpins⟩ := exists_mergeAll_constant? h (range_of_ofConstant hks)
  refine ⟨m, hm, fun c ↦ ?_⟩
  rw [hpins c, forall_constant?_ofConstant_iff hks]
  have hne : ks ≠ [] := by
    rintro rfl
    cases hks
  obtain ⟨k, hk⟩ := List.exists_mem_of_ne_nil ks hne
  constructor
  · intro hall
    exact ⟨fun k hk ↦ (hall k hk).1, (hall k hk).2⟩
  · rintro ⟨hsame, hfoldable⟩ k hk
    exact ⟨hsame k hk, hfoldable⟩

/-- A word that is not extended from its width counts as one that is, and a null of a class as a
null without one. -/
theorem mergeAll_pins_constant_octets :
    let number := ClassType.root "Number"
    let null := Stamp.ref .full .null
    let typedNull := Stamp.ref .full { type? := some number, exact := true, alwaysNull := true }
    let octet := Stamp.oneInt 8 300
    ([null, typedNull].Pairwise Compatible ∧ [octet, octet].Pairwise Compatible ∧
      (∀ s ∈ [null, typedNull], s.RangeNormal ∧ s.RangeNonempty) ∧
      List.Forall₂ (fun k s ↦ ofConstant k none = .ok s) [.int 8 300, .int 8 44] [octet, octet]) ∧
    (∃ m, mergeAll null [typedNull] = .ok m ∧ m.constant? = some (.null .full)) ∧
    ∃ m, mergeAll octet [octet] = .ok m ∧ m.constant? = some (.int 8 44) := by
  intro number null typedNull octet
  have hnulls : [null, typedNull].Pairwise Compatible := by decide +kernel
  have hoctets : [octet, octet].Pairwise Compatible := by decide +kernel
  have hranges : ∀ s ∈ [null, typedNull], s.RangeNormal ∧ s.RangeNonempty := by
    simp [null, typedNull, RangeNormal, RangeNonempty]
  have hconstants : List.Forall₂ (fun k s ↦ ofConstant k none = .ok s) [.int 8 300, .int 8 44]
      [octet, octet] := .cons rfl (.cons (by decide +kernel) .nil)
  refine ⟨⟨hnulls, hoctets, hranges, hconstants⟩, ?_, ?_⟩
  · obtain ⟨m, hm, hpins⟩ := (mergeAll_pins_constant_iff hnulls).1 hranges
    exact ⟨m, hm, (hpins _).mpr (by decide)⟩
  · obtain ⟨m, hm, hpins⟩ := (mergeAll_pins_constant_iff hoctets).2 none _ hconstants
    exact ⟨m, hm, (hpins _).mpr ⟨by decide +kernel, .inr ⟨8, 300, by decide +kernel⟩⟩⟩

end Stamp

end DivGuard
