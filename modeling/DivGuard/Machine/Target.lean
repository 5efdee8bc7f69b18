import DivGuard.Text.Blank

/-!
# Target machines

Two things matter about a machine here: the width of its registers, and whether its divide
instruction faults on a zero divisor.
-/

namespace DivGuard

inductive Arch where
  | x86_64
  | aarch64
  deriving DecidableEq, Repr

namespace Arch

/-- On x86-64 division by zero faults; on AArch64 it quietly gives zero. -/
def faultsOnZero : Arch → Bool
  | .x86_64 => true
  | .aarch64 => false

def name : Arch → String
  | .x86_64 => "x86_64"
  | .aarch64 => "aarch64"

def ofName? (name : String) : Option Arch :=
  if ["x86_64", "amd64", "x64"].contains name then some .x86_64
  else if ["aarch64", "arm64"].contains name then some .aarch64
  else none

end Arch

structure Target where
  arch : Arch
  wordBits : Nat := 64
  deriving DecidableEq, Repr

namespace Target

def x86_64 : Target := { arch := .x86_64 }

def aarch64 : Target := { arch := .aarch64 }

def host : Target := x86_64

/-- Reads an architecture name or a triple such as `aarch64-unknown-linux-gnu`: what stands before
the first hyphen counts, in either case of ASCII letters, blanks around the text aside. -/
def parse? (text : String) : Option Target :=
  let name := (Text.trimBlanks text.toList).takeWhile fun c ↦ c != '-'
  (Arch.ofName? (String.ofList (name.map Char.toLower))).map fun arch ↦ { arch }

/-- The target that a setting names, or the host if there is none or it is not understood. -/
def ofSetting (setting? : Option String) : Target :=
  (setting?.bind parse?).getD host

def supportsWidth (t : Target) (bits : Nat) : Bool :=
  bits == 32 || bits == t.wordBits

def text (t : Target) : String := s!"{t.arch.name} ({t.wordBits}-bit)"

end Target

end DivGuard
