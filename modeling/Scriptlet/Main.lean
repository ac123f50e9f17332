import Scriptlet.CommandLine.Execute

/-!
# The program

Executes the command line it was started with and writes what that leaves behind.
-/

/-- Writes bytes to a stream. -/
def writeBytes (stream : IO.FS.Stream) (text : Scriptlet.Bytes) : IO Unit := do
  stream.write text.toByteArray
  stream.flush

/-- Executes the arguments as a command line. -/
def main (arguments : List String) : IO UInt32 := do
  let report := Scriptlet.CommandLine.executeProcess (arguments.map Scriptlet.Bytes.ofString)
  writeBytes (← IO.getStdout) report.output
  writeBytes (← IO.getStderr) report.errors
  pure report.exitCode.toUInt32
