import DivGuard.Inspect.Report

/-!
# The inspector as a program

Hands the command line and the target setting over and writes the report out.
-/

def main (arguments : List String) : IO UInt32 := do
  let setting? ← IO.getEnv DivGuard.Inspect.targetSetting
  let report := DivGuard.Inspect.command arguments setting?
  IO.print report.output
  IO.eprint report.errors
  return report.code.toUInt32
