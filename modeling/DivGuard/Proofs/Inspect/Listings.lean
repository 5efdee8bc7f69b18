import DivGuard.Inspect.Report
import DivGuard.Proofs.Inspect.CommandLine
import DivGuard.Proofs.Inspect.Unit
import DivGuard.Proofs.Session.Reports

/-!
# What the inspector prints

Printed text is a sequence of lines with a newline behind each.  A graph takes one line for its name
and one for each live node.  Here are the lines for the unit, before and after its division is put
behind a guard, and those for the books in either case.
-/

namespace DivGuard

variable {bits : Nat} {l : Lowering} {target : Target}

def unlines (lines : List String) : String := String.join (lines.map (· ++ "\n"))

theorem unlines_append (lines lines' : List String) :
    unlines (lines ++ lines') = unlines lines ++ unlines lines' := by
  simp [unlines]

theorem unlines_singleton (line : String) : unlines [line] = line ++ "\n" := by
  simp [unlines]

/-! ## Graphs -/

namespace Graph

/-- The live nodes with their numbers, in increasing order. -/
def entries (g : Graph) : List (NodeId × Node) :=
  g.nodeIds.filterMap fun id ↦ (g.node? id).map (Prod.mk id)

theorem join_map_elim {α β : Type} (f : α → Option β) (line : α → β → String) (xs : List α) :
    String.join (xs.map fun x ↦ (f x).elim "" (line x)) =
      String.join ((xs.filterMap fun x ↦ (f x).map (Prod.mk x)).map fun (x, y) ↦ line x y) := by
  induction xs with
  | nil => rfl
  | cons x xs ih =>
      cases hx : f x with
      | none => simp [hx, ih]
      | some y => simp [hx, ih]

theorem text_eq (g : Graph) :
    g.text =
      unlines (s!"Graph {g.name}" :: g.entries.map fun (id, node) ↦ "  " ++ node.text id) := by
  rw [text, join_map_elim (g.node? ·) fun id node ↦ s!"  {node.text id}\n"]
  simp [unlines, entries, toString, Function.comp_def]

end Graph

theorem Stamp.text_anyInt (h : 0 < bits) : (anyInt bits).text = s!"i{bits}" := by
  rw [anyInt, text, IntRange.full_eq, IntRange.text, if_neg (leastInt_ne_greatestInt h),
    if_pos ⟨rfl, rfl⟩]

theorem Stamp.text_oneInt_zero (bits : Nat) : (oneInt bits 0).text = s!"i{bits} [0]" := by
  have hword : Int.repr 0 = "0" := by rfl
  rw [oneInt, text, IntRange.single, IntRange.between, signExtend_zero, IntRange.text, if_pos rfl]
  simp [hword, toString, ← String.toList_inj]

/-- The width stands last, so what a line says before it can be read off the line for width 1. -/
theorem Node.text_anyInt (h : 0 < bits) {id : NodeId} {kind : Node.Kind} {inputs : List NodeId}
    {head : String} (hone : Node.text id ⟨kind, .anyInt 1, inputs⟩ = head ++ "1") :
    Node.text id ⟨kind, .anyInt bits, inputs⟩ = head ++ toString bits := by
  rw [Node.text, Stamp.text_anyInt Nat.one_pos] at hone
  rw [Node.text, Stamp.text_anyInt h]
  have hhead := (String.append_left_inj "1").mp (String.append_assoc.trans hone)
  exact String.append_assoc.symm.trans (congrArg (· ++ toString bits) hhead)

namespace Inspect

/-! ## The unit -/

/-- The listing of the unit before it is lowered. -/
def unitLines (name : String) (bits : Nat) : List String :=
  [s!"Graph {name}_i{bits}",
    s!"  n0 = param(0) : i{bits}",
    s!"  n1 = param(1) : i{bits}",
    s!"  n2 = {name} n0, n1 : i{bits}",
    "  n3 = return n2 : void"]

/-- The listing of the unit with the division behind a guard. -/
def guardedLines (name : String) (bits : Nat) : List String :=
  [s!"Graph {name}_i{bits}",
    s!"  n0 = param(0) : i{bits}",
    s!"  n1 = param(1) : i{bits}",
    "  n3 = return n7 : void",
    s!"  n4 = const i{bits} 0 : i{bits} [0]",
    "  n5 = eq n1, n4 : i32 [0 - 1]",
    "  n6 = guard(DivisionByZero, None) n5 : void",
    s!"  n7 = safe {name} n0, n1, n6 : i{bits}"]

theorem text_zero (bits : Nat) :
    Node.text 4 ⟨.constant (.ofInt bits 0), .oneInt bits 0, []⟩ =
      s!"n4 = const i{bits} 0 : i{bits} [0]" := by
  have hparts : Node.text 4 ⟨.constant (.int bits 0), .oneInt bits 0, []⟩ =
      "n4" ++ " = " ++ ("const " ++ ("i" ++ toString bits ++ " " ++ "0")) ++ "" ++ " : " ++
        s!"i{bits} [0]" := by
    rw [Node.text, Stamp.text_oneInt_zero]
    rfl
  rw [Constant.ofInt_zero, hparts]
  simp [toString, ← String.toList_inj]

section Unit

variable (h : 0 < bits)

include h

theorem text_parameters :
    Node.text 0 ⟨.parameter 0, .anyInt bits, []⟩ = s!"n0 = param(0) : i{bits}" ∧
      Node.text 1 ⟨.parameter 1, .anyInt bits, []⟩ = s!"n1 = param(1) : i{bits}" :=
  ⟨Node.text_anyInt h rfl, Node.text_anyInt h rfl⟩

theorem text_divisionGraph (op : DivOp) :
    (divisionGraph op bits).text = unlines (unitLines op.spelling bits) := by
  have hentries : (divisionGraph op bits).entries =
      [(0, ⟨.parameter 0, .anyInt bits, []⟩), (1, ⟨.parameter 1, .anyInt bits, []⟩),
        (2, ⟨.divRem op, .anyInt bits, [0, 1]⟩), (3, ⟨.result, .void, [2]⟩)] := rfl
  obtain ⟨hx, hy⟩ := text_parameters h
  have hdivision : Node.text 2 ⟨.divRem op, .anyInt bits, [0, 1]⟩ =
      s!"n2 = {op.spelling} n0, n1 : i{bits}" :=
    Node.text_anyInt h (by cases op <;> rfl)
  have hresult : Node.text 3 ⟨.result, .void, [2]⟩ = "n3 = return n2 : void" := rfl
  rw [Graph.text_eq, hentries, divisionGraph, DivOp.name_eq_spelling]
  simp only [List.map_cons, List.map_nil, hx, hy, hdivision, hresult]
  simp [unitLines, toString, ← String.append_assoc]

theorem text_guardedGraph (hpolicy : l.policy = .keepCode) (op : DivOp) :
    (guardedGraph l op bits).text = unlines (guardedLines op.spelling bits) := by
  have hentries : (guardedGraph l op bits).entries =
      [(0, ⟨.parameter 0, .anyInt bits, []⟩), (1, ⟨.parameter 1, .anyInt bits, []⟩),
        (3, ⟨.result, .void, [7]⟩), (4, ⟨.constant (.ofInt bits 0), .oneInt bits 0, []⟩),
        (5, ⟨.equals, .int (.between 32 0 1), [1, 4]⟩),
        (6, ⟨.guard (l.policy .divisionByZero), .void, [5]⟩),
        (7, ⟨.safeDivRem op, .anyInt bits, [0, 1, 6]⟩)] := by
    rw [guardedGraph_eq]
    rfl
  obtain ⟨hx, hy⟩ := text_parameters h
  have hresult : Node.text 3 ⟨.result, .void, [7]⟩ = "n3 = return n7 : void" := rfl
  have hequals : Node.text 5 ⟨.equals, .int (.between 32 0 1), [1, 4]⟩ =
      "n5 = eq n1, n4 : i32 [0 - 1]" := rfl
  have hguard : Node.text 6 ⟨.guard (l.policy .divisionByZero), .void, [5]⟩ =
      "n6 = guard(DivisionByZero, None) n5 : void" := by
    rw [hpolicy]
    rfl
  have hdivision : Node.text 7 ⟨.safeDivRem op, .anyInt bits, [0, 1, 6]⟩ =
      s!"n7 = safe {op.spelling} n0, n1, n6 : i{bits}" :=
    Node.text_anyInt h (by cases op <;> rfl)
  rw [Graph.text_eq, hentries, guardedGraph_eq, DivOp.name_eq_spelling]
  simp only [List.map_cons, List.map_nil, hx, hy, hresult, text_zero, hequals, hguard, hdivision]
  simp [guardedLines, toString, ← String.append_assoc]

end Unit

/-! ## Machines, errors and books -/

/-- How a machine is named in the line with the outcome. -/
def machineText : Arch → String
  | .x86_64 => "x86_64 (64-bit)"
  | .aarch64 => "aarch64 (64-bit)"

theorem text_target (hword : target.wordBits = 64) : target.text = machineText target.arch := by
  obtain ⟨arch, wordBits⟩ := target
  obtain rfl : wordBits = 64 := hword
  cases arch <;> rfl

/-- The complaint about a width that cannot be guarded. -/
def widthText (name : String) (bits : Nat) : String :=
  "UnsupportedWidth \x7b operation: \"" ++ name ++ "\", width: " ++ toString bits ++ " \x7d"

theorem quote_name (op : DivOp) : Text.quote op.name = "\"" ++ op.spelling ++ "\"" := by
  cases op <;> rfl

theorem detail_unsupportedWidth (op : DivOp) (bits : Nat) :
    (UnitError.unsupportedWidth op bits).detail = widthText op.spelling bits := by
  have hfields : (UnitError.unsupportedWidth op bits).detail =
      "UnsupportedWidth" ++ " \x7b " ++
        ("operation" ++ ": " ++ ("\"" ++ op.spelling ++ "\"") ++ ", " ++
          ("width" ++ ": " ++ toString bits)) ++ " \x7d" := by
    rw [UnitError.detail, ← quote_name]
    rfl
  rw [hfields, ← String.toList_inj]
  unfold widthText
  simp

/-- The books of a unit whose division was lowered. -/
def loweredLines (name : String) : List String :=
  ["1 node(s) lowered",
    "Lowering Session Statistics:",
    "  Nodes lowered: 1",
    "  Nodes skipped: 0",
    "  Templates instantiated: 1",
    "  Nodes created: 4",
    "  Operation breakdown:"] ++ [s!"    {name}: 1"]

/-- The books of a unit whose division was left alone. -/
def skippedLines : List String :=
  ["0 node(s) lowered",
    "Lowering Session Statistics:",
    "  Nodes lowered: 0",
    "  Nodes skipped: 1",
    "  Templates instantiated: 0",
    "  Nodes created: 0"]

theorem text_lowered (name : String) :
    s!"{1} node(s) lowered\n" ++ Statistics.text
        { lowered := 1, instantiated := 1, created := 4, operations := ⟨[(name, 1)]⟩ } =
      unlines (loweredLines name) := by
  have hranked : Tally.ranked ⟨[(name, 1)]⟩ = [(name, 1)] := List.mergeSort_singleton _
  have hlast : String.join [s!"    {name}: {1}\n"] = s!"    {name}: 1" ++ "\n" := by
    simp [toString, Nat.toDigits_of_lt_base, Nat.digitChar, ← String.toList_inj]
  rw [Statistics.text_eq, hranked, if_neg (List.cons_ne_nil _ _), List.map_cons, List.map_nil,
    hlast, loweredLines, unlines_append, unlines_singleton, ← String.append_assoc,
    ← String.append_assoc]
  refine congrArg (· ++ (s!"    {name}: 1" ++ "\n")) ?_
  dsimp only
  rfl

theorem text_skipped : s!"{0} node(s) lowered\n" ++ Statistics.text { skipped := 1 } =
    unlines skippedLines := by
  rfl

end Inspect

end DivGuard
