import QueryFusion.Command.Execute

/-!
# The command line program

Reads the files that a command asks for, prints what it has to say, and ends with a failure code if
the command failed.
-/

namespace QueryFusion

def readFile (name : String) : IO (Except Command.FileError String) := do
  try
    let text ← IO.FS.readFile name
    pure (.ok text)
  catch
    | .noFileOrDirectory .. => pure (.error (.missing name))
    | other => pure (.error ⟨s!"open {name}: {other}"⟩)

def stopText : Command.Stop → String
  | .error cause => cause.message
  | .fault .outOfRange => "fault"
  | .fault (.violated message) => message

end QueryFusion

def main (args : List String) : IO UInt32 := do
  let report ← QueryFusion.Command.execute QueryFusion.readFile args
  IO.print report.printed.out
  IO.eprint report.printed.err
  match report.stop with
  | none => pure 0
  | some stop =>
    IO.eprintln (QueryFusion.stopText stop)
    pure 1
