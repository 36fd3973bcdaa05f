import Formula.Command

/-!
# The program

Prints the report for its arguments.
-/

def main (args : List String) : IO UInt32 := do
  let report := Formula.Report.ofArguments args
  (← IO.getStdout).putStr report.stdout
  (← IO.getStderr).putStr report.stderr
  return report.code
