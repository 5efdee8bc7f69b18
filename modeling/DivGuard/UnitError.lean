import DivGuard.Graph.Node
import DivGuard.Template.Key
import DivGuard.Text.Quote

/-!
# Errors of a compilation unit

Each says that the compiler itself is at fault, never the program it compiles; the unit is given up
and the program goes on in a lower tier.
-/

namespace DivGuard

inductive UnitError where
  | unsupportedWidth (op : DivOp) (width : Nat)
  | unsupportedNode (node : NodeId) (kind : Node.Kind)
  | incompatibleStamps (left right : Stamp)
  /-- A value that no load from memory can be folded to, by the name of its representation. -/
  | unsupportedMemoryRead (representation : String)
  /-- A number without a node, or a node without the inputs it needs. -/
  | invalidNode (node : NodeId)
  /-- A template without a node for one of its slots. -/
  | templateBinding (template : Template.Key) (slot : String)
  | missingEncoding (constant : Constant)
  | missingArgument (index provided : Nat)
  deriving DecidableEq, Repr

namespace UnitError

def message : UnitError → String
  | .unsupportedWidth op width => s!"Unsupported {width}-bit {op.name} operation"
  | .unsupportedNode node kind =>
    s!"Should not reach here: node {node} ({kind.text}) is not a division or remainder"
  | .incompatibleStamps left right =>
    s!"Cannot meet incompatible stamps {left.text} and {right.text}"
  | .unsupportedMemoryRead representation => s!"Memory provider cannot read {representation} values"
  | .invalidNode node => s!"Invalid or malformed node {node}"
  | .templateBinding template slot => s!"Template {template.text} has no binding for slot '{slot}'"
  | .missingEncoding constant => s!"Compressed constant {constant.text} has no encoding"
  | .missingArgument index provided =>
    s!"Evaluation needs argument {index} but only {provided} were provided"

/-- Whether the compiler is at fault.  Errors of the compiled program show up in its outcomes and
not here. -/
def isInternal (_ : UnitError) : Bool := true

def label : UnitError → String
  | .unsupportedWidth .. => "UnsupportedWidth"
  | .unsupportedNode .. => "UnsupportedNode"
  | .incompatibleStamps .. => "IncompatibleStamps"
  | .unsupportedMemoryRead .. => "UnsupportedMemoryRead"
  | .invalidNode .. => "InvalidNode"
  | .templateBinding .. => "TemplateBinding"
  | .missingEncoding .. => "MissingEncoding"
  | .missingArgument .. => "MissingArgument"

/-- The fields by name, numbers bare and texts in quotes. -/
def fields : UnitError → List (String × String)
  | .unsupportedWidth op width => [("operation", Text.quote op.name), ("width", toString width)]
  | .unsupportedNode node kind => [("node", toString node), ("kind", Text.quote kind.text)]
  | .incompatibleStamps left right =>
    [("left", Text.quote left.text), ("right", Text.quote right.text)]
  | .unsupportedMemoryRead representation => [("representation", Text.quote representation)]
  | .invalidNode node => [("node", toString node)]
  | .templateBinding template slot =>
    [("template", Text.quote template.text), ("slot", Text.quote slot)]
  | .missingEncoding constant => [("constant", Text.quote constant.text)]
  | .missingArgument index provided =>
    [("index", toString index), ("provided", toString provided)]

def detail (e : UnitError) : String :=
  e.label ++ " \x7b " ++ ", ".intercalate (e.fields.map fun (name, value) ↦ s!"{name}: {value}")
    ++ " \x7d"

end UnitError

end DivGuard
