import DivGuard.Integer.Division
import DivGuard.Machine.Target
import DivGuard.Text.Numeral

/-!
# Options of the inspector

Options have long names.  A value follows as the next argument or after an equals sign, and each
option may be given once.  Only the operands of the division take a next argument that starts with a
hyphen; anything else that does so counts as an option of its own.
-/

namespace DivGuard.Inspect

structure Options where
  target? : Option Target := none
  op : DivOp := .sdiv
  bits : Nat := 32
  dividend : Int64 := 7
  divisor : Int64 := 0
  force : Bool := false
  deriving DecidableEq, Repr

inductive OptionName where
  | target
  | op
  | bits
  | dividend
  | divisor
  | force
  deriving DecidableEq, Repr

namespace OptionName

def all : List OptionName := [.target, .op, .bits, .dividend, .divisor, .force]

def text : OptionName → String
  | .target => "target"
  | .op => "op"
  | .bits => "bits"
  | .dividend => "dividend"
  | .divisor => "divisor"
  | .force => "force"

def ofText? (text : String) : Option OptionName := all.find? fun name ↦ name.text == text

def takesValue : OptionName → Bool
  | .force => false
  | .target | .op | .bits | .dividend | .divisor => true

/-- Whether the next argument is the value even if it starts with a hyphen. -/
def takesHyphen : OptionName → Bool
  | .dividend | .divisor => true
  | .target | .op | .bits | .force => false

end OptionName

inductive UsageError where
  | unexpected (argument : String)
  | repeated (option : OptionName)
  | missingValue (option : OptionName)
  | unneededValue (option : OptionName)
  | invalidValue (option : OptionName) (value : String)
  deriving DecidableEq, Repr

def UsageError.message : UsageError → String
  | .unexpected argument => s!"unexpected argument '{argument}' found"
  | .repeated option => s!"the argument '--{option.text}' cannot be used multiple times"
  | .missingValue option => s!"a value is required for '--{option.text}' but none was supplied"
  | .unneededValue option => s!"no value is allowed for '--{option.text}'"
  | .invalidValue option value => s!"invalid value '{value}' for '--{option.text}'"

/-- The widths that can be asked for. -/
def widthOfDecimal? (text : String) : Option Nat :=
  match Text.wordOfDecimal? text with
  | none => none
  | some n => if 1 ≤ n ∧ n ≤ 64 then some n.toInt.toNat else none

namespace Options

/-- The options with one of them set from its text.  `force` has no text and is switched on. -/
def set? (o : Options) (value : String) : OptionName → Option Options
  | .target => (Target.parse? value).map fun target ↦ { o with target? := some target }
  | .op => (DivOp.ofName? value).map fun op ↦ { o with op }
  | .bits => (widthOfDecimal? value).map fun bits ↦ { o with bits }
  | .dividend => (Text.wordOfDecimal? value).map fun dividend ↦ { o with dividend }
  | .divisor => (Text.wordOfDecimal? value).map fun divisor ↦ { o with divisor }
  | .force => some { o with force := true }

def set (o : Options) (name : OptionName) (value : String) : Except UsageError Options :=
  match o.set? value name with
  | none => .error (.invalidValue name value)
  | some o => .ok o

end Options

/-- What a single argument is. -/
inductive Argument where
  | help
  /-- The mark after which only operands without a name follow. -/
  | endOfOptions
  | option (name : OptionName) (value? : Option String)
  | other

namespace Argument

/-- Reads what follows two hyphens: a name, and a value if there is an equals sign. -/
def ofLong (cs : List Char) : Argument :=
  let value? := match cs.dropWhile fun c ↦ c != '=' with
    | [] => none
    | _ :: value => some (String.ofList value)
  match OptionName.ofText? (String.ofList (cs.takeWhile fun c ↦ c != '=')) with
  | none => .other
  | some name => .option name value?

def read (text : String) : Argument :=
  match text.toList with
  | ['-', '-'] => .endOfOptions
  | ['-', '-', 'h', 'e', 'l', 'p'] => .help
  | '-' :: '-' :: long => ofLong long
  | '-' :: 'h' :: _ => .help
  | _ => .other

/-- Whether an argument is taken for an option where a value is expected.  A single hyphen is a
value. -/
def looksLikeOption (text : String) : Bool :=
  match text.toList with
  | '-' :: _ :: _ => true
  | _ => false

end Argument

/-- A command line that can be carried out. -/
inductive Request where
  | help
  | show (options : Options)
  deriving DecidableEq, Repr

/-- Reads the arguments that are left, with the options given so far. -/
def readArguments : List String → List OptionName → Options → Except UsageError Request
  | [], _, o => .ok (.show o)
  | text :: rest, given, o =>
    match Argument.read text with
    | .help => .ok .help
    | .other => .error (.unexpected text)
    | .endOfOptions =>
      match rest with
      | [] => .ok (.show o)
      | operand :: _ => .error (.unexpected operand)
    | .option name value? =>
      if given.contains name then .error (.repeated name)
      else match name.takesValue, value?, rest with
        | false, some _, _ => .error (.unneededValue name)
        | false, none, rest =>
          match o.set name "" with
          | .error e => .error e
          | .ok o => readArguments rest (name :: given) o
        | true, some value, rest =>
          match o.set name value with
          | .error e => .error e
          | .ok o => readArguments rest (name :: given) o
        | true, none, [] => .error (.missingValue name)
        | true, none, value :: rest =>
          if Argument.looksLikeOption value && !name.takesHyphen then .error (.missingValue name)
          else match o.set name value with
            | .error e => .error e
            | .ok o => readArguments rest (name :: given) o

def Request.read (arguments : List String) : Except UsageError Request :=
  readArguments arguments [] {}

end DivGuard.Inspect
