import DivGuard.Proofs.Stamp.Constants

/-!
# Which constants an edge accepts

A constant has the representation of its own stamp, so it could flow where that stamp can be merged.
Edges accept just these constants, under any encoding if they are narrow, and one kind more: edges
of references ask only for the form of a reference, so they let integers pass.
-/

namespace DivGuard

/-- The layout of references held in this form, narrow ones under the given encoding. -/
def RefForm.layout (encoding : Encoding) : RefForm → RefLayout
  | .full => .full
  | .narrow => .narrow encoding

/-- The representation of a constant, that of a narrow reference under the given encoding. -/
def Constant.representation (encoding : Encoding) : Constant → Representation
  | .int bits _ => .int bits
  | .null form => .ref (form.layout encoding)
  | .object _ form => .ref (form.layout encoding)

instance : Nonempty Encoding := ⟨.ofShift 0⟩

theorem RefForm.exists_layout_eq_iff {form : RefForm} {layout : RefLayout} :
    (∃ e, form.layout e = layout) ↔ form = layout.form := by
  cases layout <;> cases form <;> simp [RefForm.layout, RefLayout.form]

namespace Stamp

variable {s : Stamp} {c : Constant} {e : Encoding}

/-- An integer constant on an edge of references. -/
def StrayInteger (s : Stamp) (c : Constant) : Prop := s.facts? ≠ none ∧ c.form? = none

instance (s : Stamp) (c : Constant) : Decidable (StrayInteger s c) :=
  inferInstanceAs (Decidable (_ ∧ _))

/-! ## The stamp of a constant -/

theorem layoutOf?_some (form : RefForm) (e : Encoding) :
    layoutOf? form (some e) = some (form.layout e) := by
  cases form <;> rfl

theorem exists_ofConstant (c : Constant) (e : Encoding) :
    ∃ t, ofConstant c (some e) = .ok t ∧ t.representation = c.representation e := by
  cases c with
  | int bits value => exact ⟨.oneInt bits value, rfl, rfl⟩
  | null form | object address form =>
      exact ⟨_, ofReference_eq_ok_iff.mpr ⟨_, layoutOf?_some form e, rfl⟩, rfl⟩

/-! ## Acceptance -/

theorem representation_ne_void (c : Constant) (e : Encoding) : c.representation e ≠ .void := by
  cases c <;> simp [Constant.representation]

/-- An edge accepts the constants of its representation under some encoding, and stray integers. -/
theorem accepts_iff :
    s.accepts c = true ↔ (∃ e, c.representation e = s.representation) ∨ StrayInteger s c := by
  cases s with
  | void => simp [accepts, StrayInteger, facts?, representation, representation_ne_void]
  | int range =>
      cases c <;> simp [accepts, StrayInteger, facts?, representation, Constant.representation]
  | ref layout facts =>
      cases c <;>
        simp [accepts, StrayInteger, facts?, Constant.form?, representation,
          Constant.representation, RefForm.exists_layout_eq_iff]

theorem StrayInteger.representation_ne (h : StrayInteger s c) (e : Encoding) :
    c.representation e ≠ s.representation := by
  obtain ⟨hreference, hinteger⟩ := h
  cases c with
  | int bits value =>
      cases s with
      | void | int range => exact absurd rfl hreference
      | ref layout facts => simp [Constant.representation, representation]
  | null form | object address form => cases hinteger

theorem isNarrow_iff : s.isNarrow = true ↔ ∃ e, s.representation = .ref (.narrow e) := by
  cases s with
  | void | int range => simp [isNarrow, representation]
  | ref layout facts => cases layout <;> simp [isNarrow, representation]

/-- The representation of an edge without narrow references names no encoding. -/
theorem representation_eq_of_wide (hwide : s.isNarrow = false)
    (h : ∃ e, c.representation e = s.representation) (e : Encoding) :
    c.representation e = s.representation := by
  obtain ⟨e', h⟩ := h
  cases c with
  | int bits value => exact h
  | null form | object address form =>
      cases form with
      | full => exact h
      | narrow =>
          -- A narrow constant has its representation on narrow edges only.
          have hnarrow : s.isNarrow = true := isNarrow_iff.mpr ⟨e', h.symm⟩
          rw [hwide] at hnarrow
          cases hnarrow

/-- On an edge without narrow references a constant is accepted just if its own stamp is compatible
with that of the edge, unless it is an integer on an edge of references.  Such an integer is
accepted, though its stamp is not compatible. -/
theorem accepts_agrees_compatible_iff (hwide : s.isNarrow = false) (c : Constant) (e : Encoding) :
    ∃ t, ofConstant c (some e) = .ok t ∧
      ((s.accepts c = true ↔ s.Compatible t) ↔ ¬StrayInteger s c) ∧
      (StrayInteger s c → s.accepts c = true) := by
  obtain ⟨t, ht, hrepresentation⟩ := exists_ofConstant c e
  have hcompatible : s.Compatible t ↔ ∃ e, c.representation e = s.representation := by
    rw [Compatible, hrepresentation, eq_comm]
    exact ⟨fun h ↦ ⟨e, h⟩, fun h ↦ representation_eq_of_wide hwide h e⟩
  refine ⟨t, ht, ?_, fun hstray ↦ accepts_iff.mpr (.inr hstray)⟩
  rw [accepts_iff, hcompatible, or_iff_left_iff_imp]
  constructor
  · intro himp hstray
    obtain ⟨e', h⟩ := himp hstray
    exact hstray.representation_ne e' h
  · intro hnot hstray
    exact absurd hstray hnot

/-- A word that is not extended from the width of the edge, and null on an edge of references. -/
theorem accepts_agrees_compatible_octet :
    let octet := Stamp.anyInt 8
    let object := Stamp.ref .full .object
    (octet.isNarrow = false ∧ ¬StrayInteger octet (.int 8 300) ∧ octet.accepts (.int 8 300) = true ∧
      ∃ t, ofConstant (.int 8 300) (some (.ofShift 3)) = .ok t ∧ octet.Compatible t) ∧
    object.isNarrow = false ∧ ¬StrayInteger object (.null .narrow) ∧
      object.accepts (.null .narrow) = false ∧
      ∃ t, ofConstant (.null .narrow) (some (.ofShift 3)) = .ok t ∧ ¬object.Compatible t := by
  intro octet object
  have hoctet : ¬StrayInteger octet (.int 8 300) := by decide
  have hobject : ¬StrayInteger object (.null .narrow) := by decide
  have haccepted : octet.accepts (.int 8 300) = true := by decide
  have hrefused : object.accepts (.null .narrow) = false := by decide
  obtain ⟨t, ht, hagrees, -⟩ :=
    accepts_agrees_compatible_iff (s := octet) rfl (.int 8 300) (.ofShift 3)
  obtain ⟨u, hu, hagrees', -⟩ :=
    accepts_agrees_compatible_iff (s := object) rfl (.null .narrow) (.ofShift 3)
  refine ⟨⟨rfl, hoctet, haccepted, t, ht, (hagrees.mpr hoctet).mp haccepted⟩,
    rfl, hobject, hrefused, u, hu, fun hcompatible ↦ ?_⟩
  have haccepts := (hagrees'.mpr hobject).mpr hcompatible
  rw [hrefused] at haccepts
  cases haccepts

/-- An integer may flow on an edge of references, whose stamp it cannot be merged with. -/
theorem integer_accepted_beside_references :
    let edge := Stamp.ref .full .anything
    ofConstant (.ofInt 32 1) (some (.ofShift 3)) = .ok (.oneInt 32 1) ∧
      edge.accepts (.ofInt 32 1) = true ∧ ¬edge.Compatible (.oneInt 32 1) ∧
      edge.merge (.oneInt 32 1) = .error (.incompatibleStamps edge (.oneInt 32 1)) := by
  decide +kernel

end Stamp

end DivGuard
