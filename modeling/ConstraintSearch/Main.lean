import ConstraintSearch.CommandLine.Behaviour

/-!
# The program

Prints the lines of `CommandLine.behaviour`, with more steps for each solution than any run will
take.
-/

def main (arguments : List String) : IO UInt32 := do
  let behaviour := ConstraintSearch.CommandLine.behaviour arguments (ConstraintSearch.Word.count 62)
  behaviour.lines.forM IO.println
  behaviour.complaint.forM IO.eprintln
  return UInt32.ofNat behaviour.exitCode
