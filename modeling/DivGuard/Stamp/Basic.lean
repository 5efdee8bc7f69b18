import DivGuard.Machine.Target
import DivGuard.Reference.Encoding
import DivGuard.Stamp.IntRange
import DivGuard.Stamp.RefFacts

/-!
# Stamps

A stamp says which values an edge of a graph can carry.  For a reference this has two independent
parts: the layout, full or narrow under an encoding, and the facts.  `Stamp.representation` is what
remains of a stamp without ranges and facts; two stamps are compatible if it is the same.
-/

namespace DivGuard

inductive RefLayout where
  | full
  | narrow (encoding : Encoding)
  deriving DecidableEq, Repr

def RefLayout.form : RefLayout → RefForm
  | .full => .full
  | .narrow _ => .narrow

inductive Stamp where
  /-- No value at all, as for guards and returns. -/
  | void
  | int (range : IntRange)
  | ref (layout : RefLayout) (facts : RefFacts)
  deriving DecidableEq, Repr

inductive Representation where
  | void
  | int (bits : Nat)
  | ref (layout : RefLayout)
  deriving DecidableEq, Repr

namespace Stamp

def anyInt (bits : Nat) : Stamp := .int (.full bits)

def oneInt (bits : Nat) (value : Int64) : Stamp := .int (.single bits value)

def representation : Stamp → Representation
  | .void => .void
  | .int range => .int range.bits
  | .ref layout _ => .ref layout

/-- Stamps of one representation can be merged, others cannot. -/
def Compatible (a b : Stamp) : Prop := a.representation = b.representation

instance (a b : Stamp) : Decidable (Compatible a b) :=
  inferInstanceAs (Decidable (a.representation = b.representation))

def isNarrow : Stamp → Bool
  | .ref (.narrow _) _ => true
  | .void | .int _ | .ref .full _ => false

def bits? : Stamp → Option Nat
  | .int range => some range.bits
  | .void | .ref _ _ => none

/-- Width of the register that holds a value of this stamp: narrow references take 32 bits on every
machine, full ones a word. -/
def registerBits? (target : Target) : Stamp → Option Nat
  | .void => none
  | .int range => some range.bits
  | .ref .full _ => some target.wordBits
  | .ref (.narrow _) _ => some 32

/-- The only value that the stamp admits, if it is known to be the only one. -/
def constant? : Stamp → Option Constant
  | .void => none
  | .int range => range.constant?
  | .ref layout facts => if facts.alwaysNull then some (.null layout.form) else none

/-- Whether a constant may flow along an edge with this stamp.  Reference edges ask only that it is
not a reference of the other form. -/
def accepts : Stamp → Constant → Bool
  | .void, _ => false
  | .int range, c => match c with
    | .int bits _ => bits == range.bits
    | .null _ | .object _ _ => false
  | .ref layout _, c => c.form?.all fun form ↦ form == layout.form

/-- The same facts under another layout.  Stamps that are no references stay as they are. -/
def inLayout (layout : RefLayout) : Stamp → Stamp
  | .void => .void
  | .int range => .int range
  | .ref _ facts => .ref layout facts

def text : Stamp → String
  | .void => "void"
  | .int range => range.text
  | .ref .full facts => facts.text
  | .ref (.narrow _) facts => "n" ++ facts.text

end Stamp

end DivGuard
