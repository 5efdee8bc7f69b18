import DivGuard.Proofs.Session.Tallies
import DivGuard.Session.Basic

/-!
# What a report shows

A report counts what a session was told and ranks the operations.  Names are ranked by a linear
order, and no name has two entries, so neither the order in which the session was told nor the order
in which its tally lists the names can be seen.
-/

namespace DivGuard

/-! ## Ranks -/

namespace Tally

variable {a b c : String × Nat} {t u : Tally} {names names' : List String}

theorem ranksBefore_iff : ranksBefore a b = true ↔ b.2 < a.2 ∨ a.2 = b.2 ∧ a.1 ≤ b.1 := by
  simp [ranksBefore]

theorem ranksBefore_trans (hab : ranksBefore a b = true) (hbc : ranksBefore b c = true) :
    ranksBefore a c = true := by
  rw [ranksBefore_iff] at hab hbc ⊢
  rcases hab with hab | ⟨hab, hnames⟩
  · exact .inl (by omega)
  · rcases hbc with hbc | ⟨hbc, hnames'⟩
    · exact .inl (by omega)
    · exact .inr ⟨hab.trans hbc, String.le_trans hnames hnames'⟩

theorem ranksBefore_total (a b : String × Nat) : (ranksBefore a b || ranksBefore b a) = true := by
  rw [Bool.or_eq_true, ranksBefore_iff, ranksBefore_iff]
  rcases Nat.lt_trichotomy a.2 b.2 with hlt | heq | hgt
  · exact .inr (.inl hlt)
  · exact (String.le_total a.1 b.1).imp (fun h ↦ .inr ⟨heq, h⟩) fun h ↦ .inr ⟨heq.symm, h⟩
  · exact .inl (.inl hgt)

theorem ranksBefore_antisymm (hab : ranksBefore a b = true) (hba : ranksBefore b a = true) :
    a = b := by
  rw [ranksBefore_iff] at hab hba
  have hcounts : a.2 = b.2 := by omega
  have hnames : a.1 = b.1 :=
    String.le_antisymm (hab.resolve_left (by omega)).2 (hba.resolve_left (by omega)).2
  exact Prod.ext hnames hcounts

theorem ranked_perm (t : Tally) : t.ranked.Perm t.entries := List.mergeSort_perm _ _

theorem ranked_pairwise (t : Tally) : t.ranked.Pairwise fun a b ↦ ranksBefore a b = true := by
  unfold ranked
  apply List.pairwise_mergeSort
  · exact fun _ _ _ ↦ ranksBefore_trans
  · exact ranksBefore_total

/-- There is one way to rank the entries. -/
theorem ranked_eq_of_pairwise {lines : List (String × Nat)} (hperm : lines.Perm t.entries)
    (hordered : lines.Pairwise fun a b ↦ ranksBefore a b = true) : t.ranked = lines :=
  List.Perm.eq_of_pairwise (fun _ _ _ _ ↦ ranksBefore_antisymm) t.ranked_pairwise hordered
    (t.ranked_perm.trans hperm.symm)

/-- Ranking leaves no trace of the order in which a tally lists its entries. -/
theorem ranked_eq_of_perm (h : t.entries.Perm u.entries) : t.ranked = u.ranked :=
  ranked_eq_of_pairwise (u.ranked_perm.trans h.symm) u.ranked_pairwise

/-- Entries with different names are ranked strictly. -/
theorem ranked_pairwise_lt (hnodup : (t.entries.map Prod.fst).Nodup) :
    t.ranked.Pairwise fun a b ↦ b.2 < a.2 ∨ a.2 = b.2 ∧ a.1 < b.1 := by
  have hnames : t.ranked.Pairwise fun a b ↦ a.1 ≠ b.1 :=
    List.pairwise_map.mp ((t.ranked_perm.map Prod.fst).nodup_iff.mpr hnodup)
  refine t.ranked_pairwise.imp₂ (fun a b hranked hne ↦ ?_) hnames
  refine (ranksBefore_iff.mp hranked).imp_right fun ⟨hcounts, hle⟩ ↦ ⟨hcounts, ?_⟩
  exact String.not_le.mp fun hge ↦ hne (String.le_antisymm hle hge)

theorem countAll_perm (h : names.Perm names') :
    (countAll {} names).entries.Perm (countAll {} names').entries := by
  rw [List.perm_ext_iff_of_nodup (nodup_countAll names).of_map (nodup_countAll names').of_map]
  rintro ⟨name, n⟩
  rw [mem_countAll, mem_countAll, h.mem_iff, h.count_eq]

theorem isEmpty_eq_ranked (t : Tally) : t.isEmpty = t.ranked.isEmpty := by
  rw [isEmpty, Bool.eq_iff_iff, List.isEmpty_iff, List.isEmpty_iff]
  constructor
  · intro h
    exact (h ▸ t.ranked_perm).eq_nil
  · intro h
    exact (h ▸ t.ranked_perm.symm).eq_nil

end Tally

/-! ## Records -/

/-- What a session is told. -/
inductive Session.Record where
  | lowered (operation : String)
  | skipped
  | instantiated (nodes : Nat)
  deriving DecidableEq, Repr

namespace Session

def Record.operation? : Record → Option String
  | .lowered operation => some operation
  | .skipped | .instantiated _ => none

def Record.nodes? : Record → Option Nat
  | .instantiated nodes => some nodes
  | .lowered _ | .skipped => none

def tell (s : Session) : Record → Session
  | .lowered operation => s.recordLowered operation
  | .skipped => s.recordSkipped
  | .instantiated nodes => s.recordInstantiated nodes

def told (records : List Record) : Session := records.foldl tell {}

variable {records records' : List Record}

/-- The statistics in closed form. -/
theorem statistics_foldl_tell (records : List Record) (s : Session) :
    (records.foldl tell s).statistics =
      { lowered := s.statistics.lowered + (records.filterMap Record.operation?).length
        skipped := s.statistics.skipped + records.count .skipped
        instantiated := s.statistics.instantiated + (records.filterMap Record.nodes?).length
        created := s.statistics.created + (records.filterMap Record.nodes?).sum
        operations := s.statistics.operations.countAll (records.filterMap Record.operation?) } := by
  induction records generalizing s with
  | nil => rfl
  | cons record records ih =>
      rw [List.foldl_cons, ih]
      cases record with
      | lowered operation =>
          simp [tell, recordLowered, Statistics.recordLowered, List.filterMap_cons,
            Record.operation?, Record.nodes?, Tally.countAll]
          omega
      | skipped =>
          simp [tell, recordSkipped, Statistics.recordSkipped, List.filterMap_cons,
            Record.operation?, Record.nodes?]
          omega
      | instantiated nodes =>
          simp [tell, recordInstantiated, Statistics.recordInstantiated, List.filterMap_cons,
            Record.operation?, Record.nodes?]
          omega

theorem statistics_told (records : List Record) :
    (told records).statistics =
      { lowered := (records.filterMap Record.operation?).length
        skipped := records.count .skipped
        instantiated := (records.filterMap Record.nodes?).length
        created := (records.filterMap Record.nodes?).sum
        operations := Tally.countAll {} (records.filterMap Record.operation?) } := by
  simpa [told] using statistics_foldl_tell records {}

theorem mem_filterMap_operation? {name : String} :
    name ∈ records.filterMap Record.operation? ↔ .lowered name ∈ records := by
  rw [List.mem_filterMap]
  constructor
  · rintro ⟨record, hrecord, hname⟩
    cases record with
    | lowered operation => exact Option.some.inj hname ▸ hrecord
    | skipped | instantiated _ => cases hname
  · exact fun h ↦ ⟨_, h, rfl⟩

theorem count_filterMap_operation? (records : List Record) (name : String) :
    (records.filterMap Record.operation?).count name = records.count (.lowered name) := by
  induction records with
  | nil => rfl
  | cons record records ih =>
      cases record <;> simp [List.filterMap_cons, Record.operation?, List.count_cons, ih]

end Session

/-! ## Reports -/

namespace Statistics

/-- The same counts, with the tally in another order. -/
structure Reordered (s t : Statistics) : Prop where
  lowered : t.lowered = s.lowered
  skipped : t.skipped = s.skipped
  instantiated : t.instantiated = s.instantiated
  created : t.created = s.created
  operations : t.operations.entries.Perm s.operations.entries

variable {s t u : Statistics}

theorem Reordered.trans (hst : s.Reordered t) (htu : t.Reordered u) : s.Reordered u where
  lowered := htu.lowered.trans hst.lowered
  skipped := htu.skipped.trans hst.skipped
  instantiated := htu.instantiated.trans hst.instantiated
  created := htu.created.trans hst.created
  operations := htu.operations.trans hst.operations

theorem breakdown_eq (t : Tally) :
    report.breakdown t =
      if t.ranked = [] then []
      else "  Operation breakdown:" :: t.ranked.map fun (name, n) ↦ s!"    {name}: {n}" := by
  simp only [report.breakdown, Tally.isEmpty_eq_ranked, List.isEmpty_iff]

/-- The text of a report in full.  Every line ends in a newline, also the last. -/
theorem text_eq (s : Statistics) :
    s.text =
      "Lowering Session Statistics:\n" ++
      s!"  Nodes lowered: {s.lowered}\n" ++
      s!"  Nodes skipped: {s.skipped}\n" ++
      s!"  Templates instantiated: {s.instantiated}\n" ++
      s!"  Nodes created: {s.created}\n" ++
      if s.operations.ranked = [] then ""
      else "  Operation breakdown:\n" ++
        String.join (s.operations.ranked.map fun (name, n) ↦ s!"    {name}: {n}\n") := by
  simp only [text, report, breakdown_eq]
  split
  · simp [toString, String.append_assoc]
  · simp [toString, String.append_assoc, Function.comp_def]

theorem Reordered.text_eq (h : s.Reordered t) : t.text = s.text := by
  simp only [Statistics.text_eq, h.lowered, h.skipped, h.instantiated, h.created,
    Tally.ranked_eq_of_perm h.operations]

end Statistics

namespace Session

variable {records records' : List Record} {s : Statistics}

theorem reordered_of_perm (h : records'.Perm records) :
    (told records).statistics.Reordered (told records').statistics := by
  rw [statistics_told, statistics_told]
  exact ⟨(h.filterMap _).length_eq, h.count_eq _, (h.filterMap _).length_eq,
    (h.filterMap _).sum_nat, Tally.countAll_perm (h.filterMap _)⟩

/-- What the breakdown of a report has to list: each operation that was recorded as lowered, once,
with the number of its records, the higher numbers first and equal ones by name. -/
structure Breakdown (records : List Record) (lines : List (String × Nat)) : Prop where
  nodup : (lines.map Prod.fst).Nodup
  mem_iff : ∀ name n, (name, n) ∈ lines ↔
    .lowered name ∈ records ∧ n = records.count (.lowered name)
  ordered : lines.Pairwise fun a b ↦ b.2 < a.2 ∨ a.2 = b.2 ∧ a.1 < b.1
  eq_nil_iff : lines = [] ↔ ∀ name, .lowered name ∉ records

theorem breakdown_ranked (records : List Record) :
    Breakdown records (told records).statistics.operations.ranked := by
  let names := records.filterMap Record.operation?
  have htally : (told records).statistics.operations = Tally.countAll {} names := by
    rw [statistics_told]
  rw [htally]
  have hperm := (Tally.countAll {} names).ranked_perm
  have hmem : ∀ name n, (name, n) ∈ (Tally.countAll {} names).ranked ↔
      .lowered name ∈ records ∧ n = records.count (.lowered name) := by
    intro name n
    rw [hperm.mem_iff, Tally.mem_countAll, mem_filterMap_operation?, count_filterMap_operation?]
  refine ⟨?_, hmem, Tally.ranked_pairwise_lt (Tally.nodup_countAll names), ?_⟩
  · exact (hperm.map Prod.fst).nodup_iff.mpr (Tally.nodup_countAll names)
  · rw [List.eq_nil_iff_forall_not_mem]
    constructor
    · exact fun hnone name hname ↦ hnone (name, _) ((hmem name _).mpr ⟨hname, rfl⟩)
    · exact fun hnone ⟨name, n⟩ hline ↦ hnone name ((hmem name n).mp hline).1

/-- The text that a session prints of what it was told.  Records in another order make the same
text, in whatever order the tallies list their names. -/
theorem report_of_records (hs : (told records).statistics.Reordered s) :
    (∀ records' s', records'.Perm records → (told records').statistics.Reordered s' →
      s'.text = s.text) ∧
    ∃ lines, Breakdown records lines ∧
      s.text =
        "Lowering Session Statistics:\n" ++
        s!"  Nodes lowered: {(records.filterMap Record.operation?).length}\n" ++
        s!"  Nodes skipped: {records.count .skipped}\n" ++
        s!"  Templates instantiated: {(records.filterMap Record.nodes?).length}\n" ++
        s!"  Nodes created: {(records.filterMap Record.nodes?).sum}\n" ++
        if lines = [] then ""
        else "  Operation breakdown:\n" ++
          String.join (lines.map fun (name, n) ↦ s!"    {name}: {n}\n") := by
  refine ⟨fun records' s' hperm hs' ↦ ?_, _, breakdown_ranked records, ?_⟩
  · exact ((reordered_of_perm hperm).trans hs').text_eq.trans hs.text_eq.symm
  · rw [hs.text_eq, Statistics.text_eq, statistics_told]

/-- Two names with the same count, told in either order, and a tally that lists a rarer name before
the most frequent one. -/
theorem report_of_records_ties :
    let records : List Record :=
      [.lowered "urem", .lowered "sdiv", .skipped, .lowered "udiv", .instantiated 4,
        .lowered "sdiv"]
    let s : Statistics :=
      { lowered := 4, skipped := 1, instantiated := 1, created := 4,
        operations := ⟨[("udiv", 1), ("sdiv", 2), ("urem", 1)]⟩ }
    (told records).statistics.Reordered s ∧ (told records.reverse).statistics.text = s.text ∧
      (∃ lines, Breakdown records lines ∧ ("sdiv", 2) ∈ lines ∧ ("urem", 1) ∈ lines) ∧
      s.text =
        "Lowering Session Statistics:\n  Nodes lowered: 4\n  Nodes skipped: 1\n" ++
        "  Templates instantiated: 1\n  Nodes created: 4\n  Operation breakdown:\n" ++
        "    sdiv: 2\n    udiv: 1\n    urem: 1\n" := by
  intro records s
  have hs : (told records).statistics.Reordered s := ⟨rfl, rfl, rfl, rfl, by decide⟩
  have hreverse : (told records.reverse).statistics.Reordered
      (told records.reverse).statistics := ⟨rfl, rfl, rfl, rfl, .refl _⟩
  have hranked : s.operations.ranked = [("sdiv", 2), ("udiv", 1), ("urem", 1)] :=
    Tally.ranked_eq_of_pairwise (by decide) (by decide)
  obtain ⟨htext, lines, hlines, -⟩ := report_of_records hs
  refine ⟨hs, htext _ _ (List.reverse_perm records) hreverse, ⟨lines, hlines, ?_⟩, ?_⟩
  · exact ⟨(hlines.mem_iff _ _).mpr (by decide), (hlines.mem_iff _ _).mpr (by decide)⟩
  · rw [Statistics.text_eq, hranked]
    decide +kernel

end Session

end DivGuard
