import DivGuard.Proofs.Graph.Built
import DivGuard.Proofs.Interpreter.Spills
import DivGuard.Proofs.Stamp.Ranges

/-!
# Values in normal form

An integer travels as a word that is extended from its width and lies in the range of its stamp.
Parameters and constants see to that themselves.  Divisions keep it up unless they spill, so in a
graph built by a front end all values below a node are normal just if no division below it spills.
-/

namespace DivGuard

variable {run : Run} {g : Graph} {n x y : NodeId} {node : Node}
  {op : DivOp} {bits : Nat} {v : Int64}

/-- The word is extended from the width of the range and lies between its bounds. -/
def IntRange.Holds (r : IntRange) (v : Int64) : Prop :=
  signExtend r.bits v = v ∧ r.lower ≤ v ∧ v ≤ r.upper

theorem IntRange.holds_signExtend {r : IntRange} (h : r.contains v = true) :
    r.Holds (signExtend r.bits v) :=
  ⟨signExtend_signExtend r.bits v, contains_iff.mp h⟩

theorem IntRange.full_holds_iff : (full bits).Holds v ↔ signExtend bits v = v := by
  rw [full_eq]
  refine and_iff_left_of_imp fun hv ↦ ?_
  exact fitsWidth_iff_bounds.mp (signExtend_eq_self_iff.mp hv)

/-- An integer that is extended from its width. -/
def Constant.Normal (c : Constant) : Prop := ∃ bits v, c = .ofInt bits v

theorem Constant.normal_int_iff : (Constant.int bits v).Normal ↔ signExtend bits v = v := by
  constructor
  · rintro ⟨bits', v', heq⟩
    obtain ⟨rfl, rfl⟩ := Constant.int.inj heq
    exact signExtend_signExtend bits v'
  · intro hv
    exact ⟨bits, v, by rw [ofInt, hv]⟩

instance (c : Constant) : Decidable c.Normal :=
  match c with
  | .int _ _ => decidable_of_iff _ Constant.normal_int_iff.symm
  | .null _ | .object _ _ => .isFalse (by rintro ⟨bits, v, heq⟩; cases heq)

def Node.Kind.constant? : Node.Kind → Option Constant
  | .constant c => some c
  | .parameter _ | .equals | .guard _ | .divRem _ | .safeDivRem _ | .result => none

/-- All constants are integers in normal form. -/
def Graph.NormalConstants (g : Graph) : Prop :=
  ∀ id node, g.node? id = some node → ∀ c ∈ node.kind.constant?, c.Normal

instance (g : Graph) : Decidable g.NormalConstants := decidable_of_iff _ Graph.forall_node?_iff.symm

namespace Run

/-- The argument that a node reads, if it is an integer parameter, is in its range. -/
def suits (run : Run) (node : Node) : Bool :=
  match node.kind, node.stamp with
  | .parameter index, .int range => run.args[index]?.all range.contains
  | _, _ => true

def ArgumentsFit (run : Run) (g : Graph) : Prop :=
  ∀ id node, g.node? id = some node → run.suits node = true

instance (run : Run) (g : Graph) : Decidable (run.ArgumentsFit g) :=
  decidable_of_iff _ Graph.forall_node?_iff.symm

/-- If the node is an integer and has a value, it is in normal form and in its range. -/
def Normal (run : Run) (g : Graph) (n : NodeId) : Prop :=
  ∀ node range v, g.node? n = some node → node.stamp = .int range →
    run.evaluate g n = .ok (.value v) → range.Holds v

theorem normal_parameter (hacyclic : g.Acyclic) {index : Nat} {range : IntRange}
    (hnode : g.node? n = some ⟨.parameter index, .int range, []⟩)
    (hsuits : run.suits ⟨.parameter index, .int range, []⟩ = true) : run.Normal g n := by
  intro node range' v hfound hstamp hv
  obtain rfl := Option.some.inj (hnode.symm.trans hfound)
  obtain rfl := Stamp.int.inj hstamp
  have hargument : run.argument index range.bits = .ok (.value v) :=
    (run.evaluate_of_node? hacyclic hnode).symm.trans hv
  unfold argument at hargument
  split at hargument
  · cases hargument
  · next a ha =>
    cases hargument
    apply IntRange.holds_signExtend
    simpa [suits, ha] using hsuits

theorem normal_constant (hacyclic : g.Acyclic) {c : Constant} {encoding? : Option Encoding}
    {stamp : Stamp} (hnode : g.node? n = some ⟨.constant c, stamp, []⟩)
    (hstamp : Stamp.ofConstant c encoding? = .ok stamp) (hc : c.Normal) : run.Normal g n := by
  intro node range v hfound hrange hv
  obtain rfl := Option.some.inj (hnode.symm.trans hfound)
  have hword : run.evaluate g n = .ok (.value c.word) := run.evaluate_of_node? hacyclic hnode
  obtain rfl : c.word = v := by simpa [hword] using hv
  obtain ⟨bits, a, rfl⟩ := hc
  obtain rfl := Except.ok.inj hstamp
  obtain rfl := Stamp.int.inj hrange
  simp [IntRange.Holds, IntRange.single, IntRange.between, Constant.ofInt, Constant.word]

/-- An unchecked division comes to its instruction just if both operands have values. -/
theorem divide?_divRem_iff (hnode : g.node? n = some ⟨.divRem op, .anyInt bits, [x, y]⟩)
    {q : Divide} :
    run.divide? g n = some q ↔ ∃ a b, run.evaluate g x = .ok (.value a) ∧
      run.evaluate g y = .ok (.value b) ∧ q = ⟨op, bits, a, b⟩ := by
  rw [divide?_eq_some_iff]
  constructor
  · rintro ⟨node, hfound, hvalues, hdivide⟩
    obtain rfl := Option.some.inj (hnode.symm.trans hfound)
    have hx : IsValue (run.evaluate g x) := hvalues x (by simp [Node.operands])
    have hy : IsValue (run.evaluate g y) := hvalues y (by simp [Node.operands])
    exact ⟨_, _, hx.eq, hy.eq, (Option.some.inj hdivide).symm⟩
  · rintro ⟨a, b, hx, hy, rfl⟩
    refine ⟨_, hnode, ?_, ?_⟩
    · simp [Node.operands, hx, hy]
    · simp [Node.operands, hx, hy, Node.divide?, Stamp.bits?, Stamp.anyInt, IntRange.full,
        IntRange.between]

theorem normal_divRem_iff (hacyclic : g.Acyclic)
    (hnode : g.node? n = some ⟨.divRem op, .anyInt bits, [x, y]⟩) {dividend : Node}
    (hx : g.node? x = some dividend) (hbits : dividend.stamp.bits? = some bits)
    (hdividend : run.Normal g x) :
    run.Normal g n ↔ ∀ q, run.divide? g n = some q → ¬q.Spills run.target := by
  have hoperand : ∀ a, run.evaluate g x = .ok (.value a) → signExtend bits a = a := by
    intro a ha
    cases hstamp : dividend.stamp with
    | int range =>
        obtain rfl : range.bits = bits := by simpa [hstamp, Stamp.bits?] using hbits
        exact (hdividend dividend range a hx hstamp ha).1
    | void | ref => simp [hstamp, Stamp.bits?] at hbits
  constructor
  · intro hnormal q hq hspills
    have heval : run.evaluate g n = .ok (q.outcome run.target) := evaluate_of_divide? hacyclic hq
    obtain ⟨a, b, ha, -, rfl⟩ := (divide?_divRem_iff hnode).mp hq
    obtain ⟨v, hv⟩ := Divide.exists_value_of_spills hspills
    rw [hv] at heval
    have hholds : (IntRange.full bits).Holds v := hnormal _ _ v hnode rfl heval
    have hiff := Divide.signExtend_eq_self_iff (q := ⟨op, bits, a, b⟩) (hoperand a ha) hv
    exact hiff.mp (IntRange.full_holds_iff.mp hholds) hspills
  · intro hsound node range v hfound hstamp hv
    obtain rfl := Option.some.inj (hnode.symm.trans hfound)
    have hrange : IntRange.full bits = range := Stamp.int.inj hstamp
    have hvalue : IsValue ((run.demand n ⟨.divRem op, .anyInt bits, [x, y]⟩).answer
        (run.evaluate g)) := by
      rw [← run.evaluate_of_node? hacyclic hnode, hv]
      exact isValue_value v
    have hinputs := Demand.inputs_of_isValue hvalue
    have ha : IsValue (run.evaluate g x) := hinputs x (by simp)
    have hb : IsValue (run.evaluate g y) := hinputs y (by simp)
    have hq := (divide?_divRem_iff hnode).mpr ⟨_, _, ha.eq, hb.eq, rfl⟩
    have heval := evaluate_of_divide? hacyclic hq
    rw [hv] at heval
    have hiff := Divide.signExtend_eq_self_iff (q := ⟨op, bits, _, _⟩) (hoperand _ ha.eq)
      (Except.ok.inj heval).symm
    rw [← hrange, IntRange.full_holds_iff]
    exact hiff.mpr (hsound _ hq)

theorem normal_frontEnd (hacyclic : g.Acyclic) (hfits : run.suits node = true)
    (hconstants : ∀ c ∈ node.kind.constant?, c.Normal)
    (hnode : g.node? n = some node) (hfront : g.FrontEnd node)
    (hinputs : ∀ input ∈ node.inputs, run.Normal g input)
    (hsound : ∀ q, run.divide? g n = some q → ¬q.Spills run.target) : run.Normal g n := by
  cases hfront with
  | parameter index range => exact normal_parameter hacyclic hnode hfits
  | constant hstamp => exact normal_constant hacyclic hnode hstamp (hconstants _ rfl)
  | divRem op y hx hbits =>
      exact (normal_divRem_iff hacyclic hnode hx hbits (hinputs _ (by simp))).mpr hsound
  | result value =>
      intro node range v hfound hstamp
      obtain rfl := Option.some.inj (hnode.symm.trans hfound)
      cases hstamp

/-- The values of a node and of all that it depends on are in normal form and in the ranges of their
stamps, unless there is a division among these nodes that spills. -/
theorem normal_below_iff (hbuilt : g.Built) (hconstants : g.NormalConstants)
    (hfits : run.ArgumentsFit g) (n : NodeId) :
    (∀ m, g.Reaches n m → run.Normal g m) ↔
      ∀ m q, g.Reaches n m → run.divide? g m = some q → ¬q.Spills run.target := by
  have hacyclic : g.Acyclic := hbuilt.acyclic
  constructor
  · intro hnormal m q hreach hq
    obtain ⟨node, hnode, -, hdivide⟩ := divide?_eq_some_iff.mp hq
    have hdivision : node.kind.isDivision = true := (Node.of_divide?_eq_some hdivide).1
    cases hbuilt.frontEnds m node hnode with
    | @divRem op x y _ _ hx hbits =>
        have huse : g.Uses m x := ⟨_, hnode, by simp⟩
        have hdividend : run.Normal g x := hnormal x (hreach.tail huse)
        exact (normal_divRem_iff hacyclic hnode hx hbits hdividend).mp (hnormal m hreach) q hq
    | parameter _ _ | constant _ | result _ => cases hdivision
  · intro hsound m
    induction m using hacyclic.induction with
    | step m ih =>
        intro hreach
        cases hnode : g.node? m with
        | none =>
            intro node _ _ hfound
            cases hnode.symm.trans hfound
        | some node =>
            apply normal_frontEnd hacyclic (hfits m node hnode) (hconstants m node hnode) hnode
              (hbuilt.frontEnds m node hnode)
            · intro input hinput
              have huse : g.Uses m input := ⟨node, hnode, hinput⟩
              exact ih input huse (hreach.tail huse)
            · intro q hq
              exact hsound m q hreach hq

/-- The greatest octet over one is the octet itself, but the word that holds it is extended from its
width no more. -/
theorem octet_quotient_spills :
    let run : Run := { target := .x86_64, args := [-1, 1] }
    Graph.octets.Built ∧ Graph.octets.NormalConstants ∧ run.ArgumentsFit .octets ∧
      run.evaluate .octets 2 = .ok (.value 255) ∧ ¬run.Normal .octets 2 := by
  intro run
  have hvalue : run.evaluate .octets 2 = .ok (.value 255) := by decide +kernel
  refine ⟨Graph.octets_built, by decide, by decide +kernel, hvalue, ?_⟩
  intro hnormal
  have hholds : (IntRange.full 8).Holds 255 := hnormal _ _ 255 rfl rfl hvalue
  exact absurd hholds.1 (by decide)

theorem octet_quotient_normal :
    let run : Run := { target := .x86_64, args := [100, 7] }
    (Graph.octets.Built ∧ Graph.octets.NormalConstants ∧ run.ArgumentsFit .octets) ∧
      ∀ m, Graph.octets.Reaches 2 m → run.Normal .octets m := by
  intro run
  have hconstants : Graph.octets.NormalConstants := by decide
  have hfits : run.ArgumentsFit .octets := by decide +kernel
  have hsound : ∀ m ∈ Graph.octets.nodeIds, ∀ q ∈ run.divide? .octets m, ¬q.Spills run.target := by
    decide +kernel
  refine ⟨⟨Graph.octets_built, hconstants, hfits⟩, ?_⟩
  apply (normal_below_iff Graph.octets_built hconstants hfits 2).mpr
  intro m q _ hq
  obtain ⟨node, hnode, -⟩ := divide?_eq_some_iff.mp hq
  exact hsound m (Graph.mem_nodeIds.mpr (Graph.contains_of_node? hnode)) q hq

end Run

end DivGuard
