import MacroMachine.Demo

/-!
# The command line

Writes the transcript of the demonstration and exits with its code.
-/

/-- Runs the demonstration macro as the arguments ask. -/
def main (arguments : List String) : IO UInt32 := do
  let transcript := MacroMachine.Demo.transcript arguments
  (← IO.getStdout).putStr transcript.out
  (← IO.getStderr).putStr transcript.err
  return UInt32.ofNat transcript.exitCode
