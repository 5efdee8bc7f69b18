import DivGuard.Inspect.Options
import DivGuard.Interpreter.Evaluate
import DivGuard.Lowering.Pass

/-!
# Reports of the inspector

The inspector builds the unit that returns one division of its two parameters, shows it before and
after lowering, and runs what lowering made of it.
-/

namespace DivGuard.Inspect

/-- The setting that names a target if no option does. -/
def targetSetting : String := "MIDTIER_TARGET"

def Options.target (o : Options) (setting? : Option String) : Target :=
  o.target?.getD (.ofSetting setting?)

/-- The unit that returns `p0 op p1`, and the number of its result. -/
def divisionUnit (op : DivOp) (bits : Nat) : Except UnitError (NodeId × Graph) :=
  let g : Graph := { name := s!"{op.name}_i{bits}" }
  let (x, g) := g.addParameter 0 (.anyInt bits)
  let (y, g) := g.addParameter 1 (.anyInt bits)
  match g.addDivRem op x y with
  | .error e => .error e
  | .ok (quotient, g) => g.addResult quotient

inductive Findings where
  /-- The unit was given up.  The graphs that it went through until then are kept. -/
  | givenUp (graphs : List Graph) (error : UnitError)
  | complete (before after : Graph) (outcome : Outcome) (replaced : Nat) (statistics : Statistics)
  deriving DecidableEq, Repr

/-- Lowers the unit that the options describe for a target, and runs it there. -/
def findings (o : Options) (target : Target) : Findings :=
  match divisionUnit o.op o.bits with
  | .error e => .givenUp [] e
  | .ok (result, before) =>
    match Lowering.run { target, force := o.force } { graph := before } with
    | (.error e, _) => .givenUp [before] e
    | (.ok replaced, w) =>
      match Run.evaluate ⟨target, [o.dividend, o.divisor]⟩ w.graph result with
      | .error e => .givenUp [before, w.graph] e
      | .ok outcome => .complete before w.graph outcome replaced w.session.statistics

structure Report where
  code : Nat
  output : String
  errors : String := ""
  deriving DecidableEq, Repr

/-- The listings of graphs, a blank line behind each. -/
def listings (graphs : List Graph) : String := String.join (graphs.map fun g ↦ g.text ++ "\n")

def Findings.report (o : Options) (target : Target) : Findings → Report
  | .givenUp graphs e =>
    { code := 1, output := listings graphs, errors := s!"Error: {e.detail}\n" }
  | .complete before after outcome replaced statistics =>
    { code := 0
      output := listings [before, after]
        ++ s!"{o.op.name}({o.dividend}, {o.divisor}) on {target.text} = {outcome.text}\n"
        ++ s!"{replaced} node(s) lowered\n"
        ++ statistics.text }

def helpText : String :=
  "\n".intercalate [
    "Lower a single integer division and show the result",
    "",
    "Usage: lowerdump [OPTIONS]",
    "",
    "Options:",
    "      --target <TARGET>      Target architecture or triple (defaults to " ++ targetSetting
      ++ ", then the host)",
    "      --op <OP>              Operation to lower [default: sdiv]",
    "      --bits <BITS>          Operand width in bits [default: 32]",
    "      --dividend <DIVIDEND>  [default: 7]",
    "      --divisor <DIVISOR>    [default: 0]",
    "      --force                Lower even when the target divide faults on zero",
    "  -h, --help                 Print help",
    ""]

def command (arguments : List String) (setting? : Option String) : Report :=
  match Request.read arguments with
  | .error e => { code := 2, output := "", errors := s!"error: {e.message}\n" }
  | .ok .help => { code := 0, output := helpText }
  | .ok (.show o) => (findings o (o.target setting?)).report o (o.target setting?)

end DivGuard.Inspect
