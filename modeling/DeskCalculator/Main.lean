import DeskCalculator.CommandLine

/-!
# The program

Reads the arguments and either works on their expressions or talks to the user.
-/

namespace DeskCalculator

/-- Shows a prompt, reads a line and answers it, until the session or the input ends. -/
partial def talk (input output : IO.FS.Stream) (s : Session) : IO Unit := do
  output.putStr prompt
  output.flush
  let line ← input.getLine
  unless line.isEmpty do
    let (shown, next) := s.reply line
    output.putStr shown
    if let some next := next then talk input output next

/-- Talks to the user. -/
def interact (limits : Limits) : IO Unit := do
  let output ← IO.getStdout
  output.putStr greeting
  talk (← IO.getStdin) output { limits := limits }

/-- Shows a report. -/
def Report.write (r : Report) : IO Unit := do
  IO.print r.out
  IO.eprint r.err

/-- What is said about arguments that are refused. -/
def refusedText : String :=
  "usage: [--ast] [--max-length N] [--max-depth N] [--verbose] [--] [EXPRESSION]..."

end DeskCalculator

open DeskCalculator in
/-- Does what the arguments ask for. -/
def main (arguments : List String) : IO UInt32 := do
  match Options.ofArguments? arguments with
  | none =>
    IO.eprintln refusedText
    return refusedCode.toUInt32
  | some options =>
    if options.expressions = [] then
      interact options.limits
      return 0
    else
      let report := Batch.run options.limits options.view options.expressions
      report.write
      return report.code.toUInt32
