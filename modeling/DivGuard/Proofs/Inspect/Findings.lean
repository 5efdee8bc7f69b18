import DivGuard.Proofs.Inspect.Listings

/-!
# What the inspector finds

The division of the unit is lowered where that is asked for or needed.  What it then evaluates to
can be said of the two operands, reduced to the width, alone.
-/

namespace DivGuard.Inspect

variable {target : Target} {o : Options}

namespace Options

/-- The division is put behind a guard: by request, or because the target does not fault on zero. -/
def guarded (o : Options) (target : Target) : Bool := o.force || target.arch == .aarch64

def lowering (o : Options) (target : Target) : Lowering := { target, force := o.force }

theorem required_lowering (o : Options) (target : Target) :
    (o.lowering target).required = o.guarded target := by
  obtain ⟨arch, _⟩ := target
  cases arch <;> rfl

theorem target_eq (o : Options) (setting? : Option String) :
    o.target setting? = (o.target? <|> setting?.bind Target.parse?).getD { arch := .x86_64 } := by
  unfold Options.target Target.ofSetting
  cases o.target? <;> rfl

theorem Valid.wordBits_target (ho : o.Valid) (setting? : Option String) :
    (o.target setting?).wordBits = 64 := by
  unfold Options.target Target.ofSetting
  cases htarget : o.target? with
  | some t => exact ho.wordBits_eq t htarget
  | none =>
      cases hparse : setting?.bind Target.parse? with
      | none => rfl
      | some t =>
          obtain ⟨setting, -, hsetting⟩ := Option.bind_eq_some_iff.mp hparse
          exact Target.wordBits_of_parse? hsetting

/-! ## Outcomes -/

/-- The outcome that is to be printed, by the operands as they are once reduced to the width. -/
def Expects (o : Options) (target : Target) (outcome : String) : Prop :=
  if o.op.reduce o.bits o.divisor = 0 then
    outcome = if o.guarded target then "Fallback(DivisionByZero)" else "Trap"
  else if target.arch = .x86_64 ∧ o.op.OverflowsAt o.bits o.dividend o.divisor then
    outcome = "Trap"
  else
    ∃ v : Int64, outcome = s!"Value({v})" ∧
      v.toInt ≡ o.op.onInts (o.op.reduce o.bits o.dividend) (o.op.reduce o.bits o.divisor)
        [ZMOD 2 ^ o.bits] ∧
      (o.bits = 32 ∨ o.bits = 64 → signExtend o.bits v = v)

theorem Valid.expects_of_ne_zero (ho : o.Valid) (target : Target)
    (hzero : o.op.reduce o.bits o.divisor ≠ 0) :
    o.Expects target (target.divide o.op o.bits (signExtend o.bits o.dividend)
      (signExtend o.bits o.divisor)).text := by
  have hdivide := target.divide_cases (x := o.dividend) o.op ho.one_le_bits ho.bits_le hzero
  rw [Expects, if_neg hzero]
  split at hdivide
  · next h => rw [if_pos h, hdivide, Outcome.text]
  · next h =>
    obtain ⟨v, hvalue, hcongruent, hextended⟩ := hdivide
    rw [if_neg h]
    exact ⟨v, by rw [hvalue, Outcome.text], hcongruent, hextended⟩

theorem Valid.expects_bare (ho : o.Valid) (hbare : o.guarded target = false) :
    o.Expects target (target.divide o.op o.bits (signExtend o.bits o.dividend)
      (signExtend o.bits o.divisor)).text := by
  by_cases hzero : o.op.reduce o.bits o.divisor = 0
  · have hdivisor := o.op.reduce_eq_zero_iff.mp hzero
    have hfaults : target.arch.faultsOnZero = true := by
      cases harch : target.arch with
      | x86_64 => rfl
      | aarch64 => simp [guarded, harch] at hbare
    have hword : signExtend o.bits (signExtend o.bits o.divisor) = 0 := by
      rw [hdivisor, signExtend_zero]
    rw [Expects, if_pos hzero, target.divide_of_signExtend _ _ hword]
    simp [hbare, hfaults, Outcome.text]
  · exact ho.expects_of_ne_zero target hzero

theorem Valid.expects_guarded (ho : o.Valid) (hguarded : o.guarded target = true) :
    o.Expects target (if signExtend o.bits o.divisor = 0 then .fallback .divisionByZero
      else target.divide o.op o.bits (signExtend o.bits o.dividend)
        (signExtend o.bits o.divisor) : Outcome).text := by
  by_cases hzero : o.op.reduce o.bits o.divisor = 0
  · have hdivisor := o.op.reduce_eq_zero_iff.mp hzero
    have htext : (Outcome.fallback .divisionByZero).text = "Fallback(DivisionByZero)" := by
      rfl
    rw [if_pos hdivisor, Expects, if_pos hzero, if_pos hguarded, htext]
  · have hdivisor := fun h ↦ hzero (o.op.reduce_eq_zero_iff.mpr h)
    rw [if_neg hdivisor]
    exact ho.expects_of_ne_zero target hzero

/-! ## Reports -/

def outcomeLine (o : Options) (arch : Arch) (outcome : String) : String :=
  s!"{o.op.spelling}({o.dividend}, {o.divisor}) on {machineText arch} = {outcome}"

/-- What is printed if all goes well: the unit, what became of it, the outcome and the books. -/
def lines (o : Options) (target : Target) (outcome : String) : List String :=
  unitLines o.op.spelling o.bits ++ [""] ++
    (if o.guarded target then guardedLines o.op.spelling o.bits
      else unitLines o.op.spelling o.bits) ++
    ["", o.outcomeLine target.arch outcome] ++
    if o.guarded target then loweredLines o.op.spelling else skippedLines

/-- A width that cannot be guarded is complained about, behind the unit as it was.  Any other gets
the outcome that the operands call for. -/
def Describes (o : Options) (target : Target) (report : Report) : Prop :=
  if o.guarded target = true ∧ o.bits ≠ 32 ∧ o.bits ≠ 64 then
    report = {
      code := 1
      output := unlines (unitLines o.op.spelling o.bits ++ [""])
      errors := "Error: " ++ widthText o.op.spelling o.bits ++ "\n" }
  else
    ∃ outcome, o.Expects target outcome ∧
      report = { code := 0, output := unlines (o.lines target outcome), errors := "" }

theorem Describes.of_overflowsAt {report : Report} (h : o.Describes target report)
    (hsupported : ¬(o.guarded target = true ∧ o.bits ≠ 32 ∧ o.bits ≠ 64))
    (hzero : o.op.reduce o.bits o.divisor ≠ 0) (harch : target.arch = .x86_64)
    (hoverflows : o.op.OverflowsAt o.bits o.dividend o.divisor) :
    report = { code := 0, output := unlines (o.lines target "Trap"), errors := "" } := by
  rw [Describes, if_neg hsupported] at h
  obtain ⟨outcome, hexpects, hreport⟩ := h
  rw [Expects, if_neg hzero, if_pos ⟨harch, hoverflows⟩] at hexpects
  rw [hreport, hexpects]

theorem report_givenUp (ho : o.Valid) (target : Target) :
    (Findings.givenUp [divisionGraph o.op o.bits] (.unsupportedWidth o.op o.bits)).report o target =
      { code := 1
        output := unlines (unitLines o.op.spelling o.bits ++ [""])
        errors := "Error: " ++ widthText o.op.spelling o.bits ++ "\n" } := by
  have hunit := text_divisionGraph ho.one_le_bits o.op
  simp [Findings.report, listings, hunit, detail_unsupportedWidth, unlines_append,
    unlines_singleton, toString]

theorem report_complete (ho : o.Valid) (hword : target.wordBits = 64) {after : Graph}
    {afterLines books : List String} {replaced : Nat} {statistics : Statistics} (outcome : Outcome)
    (hafter : after.text = unlines afterLines)
    (hbooks : s!"{replaced} node(s) lowered\n" ++ statistics.text = unlines books) :
    (Findings.complete (divisionGraph o.op o.bits) after outcome replaced statistics).report o
        target =
      { code := 0
        output := unlines (unitLines o.op.spelling o.bits ++ [""] ++ afterLines ++
          ["", o.outcomeLine target.arch outcome.text] ++ books)
        errors := "" } := by
  have hunit := text_divisionGraph ho.one_le_bits o.op
  simp only [unlines_append, ← hunit, ← hafter, ← hbooks]
  simp [Findings.report, listings, unlines, outcomeLine, text_target hword, DivOp.name_eq_spelling,
    toString, String.append_assoc]

theorem Valid.describes (ho : o.Valid) (hword : target.wordBits = 64) :
    o.Describes target ((findings o target).report o target) := by
  have hwidth : target.supportsWidth o.bits = true ↔ o.bits = 32 ∨ o.bits = 64 := by
    simp [Target.supportsWidth, hword]
  have hrequired : (o.lowering target).required = o.guarded target := o.required_lowering target
  unfold Describes findings
  rw [divisionUnit_eq]
  dsimp only
  cases hguarded : o.guarded target with
  | false =>
      obtain ⟨w, hrun, hgraph, hcounts⟩ := run_divisionGraph_of_not_required
        (hrequired.trans hguarded) o.op o.bits
      unfold lowering at hrun
      rw [hrun, if_neg (by simp)]
      dsimp only
      rw [hgraph, evaluate_divisionGraph, hcounts]
      refine ⟨_, ho.expects_bare hguarded, ?_⟩
      have hunit := text_divisionGraph ho.one_le_bits o.op
      refine (report_complete ho hword _ hunit text_skipped).trans ?_
      simp only [lines, hguarded]
      rfl
  | true =>
      by_cases hsupported : o.bits = 32 ∨ o.bits = 64
      · obtain ⟨w, hrun, hgraph, hcounts⟩ := run_divisionGraph_of_supported
          (hrequired.trans hguarded) (hwidth.mpr hsupported) o.op
        unfold lowering at hrun
        rw [hrun, if_neg (by tauto)]
        dsimp only
        rw [hgraph, evaluate_guardedGraph (hrequired.trans hguarded) (hwidth.mpr hsupported),
          hcounts]
        refine ⟨_, ho.expects_guarded hguarded, ?_⟩
        have hafter := text_guardedGraph (l := o.lowering target) ho.one_le_bits rfl o.op
        refine (report_complete ho hword _ hafter (text_lowered o.op.name)).trans ?_
        rw [DivOp.name_eq_spelling]
        simp only [lines, hguarded]
        rfl
      · have hunsupported : target.supportsWidth o.bits = false := by
          simpa using fun h ↦ hsupported (hwidth.mp h)
        obtain ⟨w, hrun⟩ := run_divisionGraph_of_unsupported
          (hrequired.trans hguarded) hunsupported o.op
        unfold lowering at hrun
        rw [hrun, if_pos (by tauto)]
        exact report_givenUp ho target

end Options

/-- All operations, widths of 1 to 64, operands, targets and flags can be asked for, and whichever
command line asks for them gets a report that describes them. -/
theorem command_describes (ho : o.Valid) (setting? : Option String) :
    let target := (o.target? <|> setting?.bind Target.parse?).getD { arch := .x86_64 }
    Request.read o.arguments = .ok (.show o) ∧
      ∀ arguments, Request.read arguments = .ok (.show o) →
        o.Describes target (command arguments setting?) := by
  intro target
  refine ⟨ho.read_arguments, fun arguments hread ↦ ?_⟩
  have htarget : o.target setting? = target := o.target_eq setting?
  unfold command
  rw [hread]
  simp only [htarget]
  exact ho.describes (htarget ▸ ho.wordBits_target setting?)

theorem command_describes_least_by_minus_one :
    let o : Options := { dividend := -2147483648, divisor := -1, force := true }
    let arguments := ["--dividend", "-2147483648", "--force", "--divisor=-1"]
    o.Valid ∧ Request.read arguments = .ok (.show o) ∧
      command arguments none = {
        code := 0
        output := unlines (unitLines "sdiv" 32 ++ [""] ++ guardedLines "sdiv" 32 ++
          ["", "sdiv(-2147483648, -1) on x86_64 (64-bit) = Trap"] ++ loweredLines "sdiv")
        errors := "" } := by
  intro o arguments
  have ho : o.Valid := ⟨by decide, by decide, by simp [o]⟩
  have hread : Request.read arguments = .ok (.show o) := by rfl
  have hdescribes : o.Describes { arch := .x86_64 } (command arguments none) :=
    (command_describes ho none).2 arguments hread
  have hline : o.outcomeLine .x86_64 "Trap" =
      "sdiv(-2147483648, -1) on x86_64 (64-bit) = Trap" := by
    rfl
  refine ⟨ho, hread, ?_⟩
  rw [hdescribes.of_overflowsAt (by decide) (by decide) rfl (by decide), Options.lines, hline]
  rfl

end DivGuard.Inspect
