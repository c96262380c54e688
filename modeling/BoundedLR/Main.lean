import BoundedLR.Calculator

/-!
# The command line

The program evaluates the formula on its command line.
-/

/-- Evaluates the formula given by the arguments, and prints its value.  If a number does
not fit, there is only the complaint about it. -/
def main (arguments : List String) : IO UInt32 := do
  match BoundedLR.Calculator.run arguments with
  | .ended transcript =>
    IO.print transcript.output
    IO.eprint transcript.errors
    return transcript.code
  | .brokenOff output overflow =>
    IO.print output
    IO.eprintln overflow.message
    return 101
